import Imap2Pst.Pst.Property

/-!
# Pst.Setters

The setters of a property context as calls, and which call a property is due to.

* `Setter`          — a call; `Setter.Matches`: the type of its tag is as wide as its value.
* `find_built`      — the last call for a property id counts.
* `readStringArray` — a reader of `PT_MV_UNICODE`; it gives back the items.
-/

namespace Imap2Pst
namespace Pst

open CxxStd

/-! ## Calls -/

inductive Setter where
  | int16 (tag : Nat) (v : UInt16)
  | int32 (tag : Nat) (v : UInt32)
  | bool (tag : Nat) (v : Bool)
  | int64 (tag : Nat) (v : UInt64)
  | time (tag : Nat) (filetime : UInt64)
  | string (tag : Nat) (utf8 : Bytes)
  | binary (tag : Nat) (data : Bytes)
  | stringArray (tag : Nat) (items : List Bytes)
  | object (tag : Nat) (nid size : UInt32)
  | spilledValue (tag : Nat) (nid : UInt32)

namespace Setter

def tag : Setter → Nat
  | int16 tag _ | int32 tag _ | bool tag _ | int64 tag _ | time tag _ | string tag _
  | binary tag _ | stringArray tag _ | object tag _ _ | spilledValue tag _ => tag

def apply : Setter → PropertyContext → PropertyContext
  | int16 tag v => .setInt16 tag v.toNat
  | int32 tag v => .setInt32 tag v.toNat
  | bool tag v => .setBool tag v
  | int64 tag v => .setInt64 tag v.toNat
  | time tag filetime => .setTime tag filetime.toNat
  | string tag utf8 => .setString tag utf8
  | binary tag data => .setBinary tag data
  | stringArray tag items => .setStringArray tag items
  | object tag nid size => .setObject tag nid.toNat size.toNat
  | spilledValue tag nid => .setSpilledValue tag nid.toNat

/-- What the context keeps. -/
def kept : Setter → PcValue
  | int16 _ v => .inline v.toNat
  | int32 _ v => .inline v.toNat
  | bool _ v => .inline (if v then 1 else 0)
  | int64 _ v => .bytes (le 8 v.toNat)
  | time _ filetime => .bytes (le 8 filetime.toNat)
  | string tag utf8 => .bytes (stringBytes tag utf8)
  | binary _ data => .bytes data
  | stringArray _ items => .bytes (PropertyContext.stringArray items)
  | object _ nid size => .bytes (le 4 nid.toNat ++ le 4 size.toNat)
  | spilledValue _ nid => .spilled nid.toNat

/-- The octets of a fixed-width value, or 0. -/
def width : Setter → Nat
  | int16 _ _ => 2
  | int32 _ _ => 4
  | bool _ _ => 1
  | int64 _ _ | time _ _ => 8
  | _ => 0

def Matches (c : Setter) : Prop := fixedPropSize (tagType c.tag) = c.width

instance (c : Setter) : Decidable c.Matches := inferInstanceAs (Decidable (_ = _))

theorem apply_eq (c : Setter) (pc : PropertyContext) : c.apply pc = pc.put c.tag c.kept := by
  cases c <;> rfl

/-- Fixed-width values of up to 4 octets are the ones kept inline. -/
theorem kept_inline_iff (c : Setter) : (∃ v, c.kept = .inline v) ↔ c.width ≠ 0 ∧ c.width ≤ 4 := by
  cases c <;> simp [kept, width]

theorem Matches.typed {c : Setter} (h : c.Matches) : Typed (c.tag, c.kept) := by
  have hsize : fixedPropSize (tagType c.tag) = c.width := h
  rw [Typed, kept_inline_iff, propIsInline, hsize]
  simp

theorem kept_lt {c : Setter} {v : Nat} (h : c.kept = .inline v) : v < 2 ^ 32 := by
  cases c with
  | int16 tag x =>
    cases h
    exact Nat.lt_trans x.toNat_lt (by decide)
  | int32 tag x =>
    cases h
    exact x.toNat_lt
  | bool tag x =>
    cases h
    split <;> decide
  | _ => cases h

theorem spilled_lt {c : Setter} {nid : Nat} (h : c.kept = .spilled nid) : nid < 2 ^ 32 := by
  cases c with
  | spilledValue tag nid =>
    cases h
    exact nid.toNat_lt
  | _ => cases h

end Setter

/-! ## Sequences of calls -/

/-- The context after these calls. -/
def built (cs : List Setter) : PropertyContext := cs.foldl (fun pc c => c.apply pc) {}

/-- The last call for a property id. -/
def lastSetter (id : Nat) (cs : List Setter) : Option Setter :=
  (cs.filter fun c => tagId c.tag = id).getLast?

theorem lastSetter_concat (id : Nat) (cs : List Setter) (c : Setter) :
    lastSetter id (cs ++ [c]) = if id = tagId c.tag then some c else lastSetter id cs := by
  unfold lastSetter
  rw [List.filter_append]
  split
  · rename_i h
    simp [h]
  · rename_i h
    simp [Ne.symm h]

theorem mem_of_lastSetter {id : Nat} {cs : List Setter} {c : Setter} (h : lastSetter id cs = some c) :
    c ∈ cs ∧ tagId c.tag = id := by
  obtain ⟨hmem, hid⟩ := List.mem_filter.1 (List.mem_of_getLast? h)
  exact ⟨hmem, of_decide_eq_true hid⟩

/-- Of the calls for a property id the last one counts. -/
theorem find_built (cs : List Setter) (id : Nat) :
    (built cs).find id = (lastSetter id cs).map fun c => (c.tag, c.kept) := by
  induction cs using List.reverseRecOn with
  | nil => rfl
  | append_singleton cs c ih =>
    have hbuilt : built (cs ++ [c]) = c.apply (built cs) := List.foldl_concat _ _ _ _
    rw [hbuilt, c.apply_eq, PropertyContext.find_put, lastSetter_concat, ih]
    split <;> rfl

theorem mem_built {cs : List Setter} {id : Nat} {c : Setter} (h : lastSetter id cs = some c) :
    (c.tag, c.kept) ∈ (built cs).values := by
  have hfind := find_built cs id
  rw [h] at hfind
  exact List.mem_of_find?_eq_some hfind

/-! ## String arrays -/

/-- Where item `i` of a string array starts; the last one runs to the end. -/
def arrayStart (b : Bytes) (i : Nat) : Nat :=
  if i < fromLe (slice b 0 4) then fromLe (slice b (4 + 4 * i) 4) else b.length

/-- The items of a string array. -/
def readStringArray (b : Bytes) : List Bytes :=
  (List.range (fromLe (slice b 0 4))).map fun i =>
    slice b (arrayStart b i) (arrayStart b (i + 1) - arrayStart b i)

namespace PropertyContext

theorem arrayOffsets_length (offset : Nat) (items : List Bytes) :
    (arrayOffsets offset items).length = items.length := by
  induction items generalizing offset with
  | nil => rfl
  | cons item items ih => rw [arrayOffsets, List.length_cons, List.length_cons, ih]

theorem getElem?_arrayOffsets {offset k : Nat} {items : List Bytes} (hk : k < items.length)
    (hsmall : offset + items.flatten.length < 2 ^ 32) :
    (arrayOffsets offset items)[k]? = some (offset + (items.take k).flatten.length) := by
  induction items generalizing offset k with
  | nil => exact absurd hk (Nat.not_lt_zero k)
  | cons item items ih =>
    rw [List.flatten_cons, List.length_append] at hsmall
    cases k with
    | zero => rfl
    | succ k =>
      rw [List.length_cons] at hk
      rw [arrayOffsets, List.getElem?_cons_succ, Nat.mod_eq_of_lt (by omega),
        ih (by omega) (by omega), List.take_succ_cons, List.flatten_cons, List.length_append,
        Nat.add_assoc]

section

variable {items : List Bytes} {b : Bytes}

theorem table_length (l : List Nat) : (l.flatMap (le 4)).length = 4 * l.length := by
  rw [length_flatMap_of_forall fun n _ => le_length 4 n, Nat.mul_comm]

/-- A buffer of less than 4 GiB with a count, a table of offsets and the items. -/
structure ArrayBuffer (items : List Bytes) (b : Bytes) : Prop where
  eq : b = le 4 items.length ++ (arrayOffsets (4 + 4 * items.length) items).flatMap (le 4) ++
    items.flatten
  small : b.length < 2 ^ 32

theorem ArrayBuffer.length (h : ArrayBuffer items b) :
    b.length = 4 + 4 * items.length + items.flatten.length := by
  rw [h.eq, List.length_append, List.length_append, le_length, table_length, arrayOffsets_length]

theorem ArrayBuffer.count (h : ArrayBuffer items b) : fromLe (slice b 0 4) = items.length := by
  have hsmall := h.small
  have hlen := h.length
  have hslice := slice_of_split
    (show b = [] ++ (le 4 items.length ++
        ((arrayOffsets (4 + 4 * items.length) items).flatMap (le 4) ++ items.flatten)) by
      conv_lhs => rw [h.eq]
      rw [List.nil_append, List.append_assoc]) (show ([] : Bytes).length = 0 from rfl)
  rw [le_length] at hslice
  rw [hslice, fromLe_le_of_lt (by omega)]

theorem ArrayBuffer.start (h : ArrayBuffer items b) {i : Nat} (hi : i ≤ items.length) :
    arrayStart b i = 4 + 4 * items.length + (items.take i).flatten.length := by
  have hsmall := h.small
  have hlen := h.length
  rw [arrayStart, h.count]
  split
  · rename_i hlt
    have hget := @getElem?_arrayOffsets (4 + 4 * items.length) i items hlt (by omega)
    obtain ⟨hlt', hval⟩ := List.getElem?_eq_some_iff.1 hget
    have hfront : (le 4 items.length ++
        ((arrayOffsets (4 + 4 * items.length) items).take i).flatMap (le 4)).length = 4 + 4 * i := by
      rw [List.length_append, le_length, table_length, List.length_take, Nat.min_eq_left hlt'.le]
    have hsplit : b = (le 4 items.length ++
        ((arrayOffsets (4 + 4 * items.length) items).take i).flatMap (le 4)) ++
        (le 4 (arrayOffsets (4 + 4 * items.length) items)[i] ++
          (((arrayOffsets (4 + 4 * items.length) items).drop (i + 1)).flatMap (le 4) ++
            items.flatten)) := by
      conv_lhs => rw [h.eq, flatMap_split hlt']
      simp only [List.append_assoc]
    have hslice := slice_of_split hsplit hfront
    have hsub : (items.take i).flatten.length ≤ items.flatten.length := by
      rw [flatten_split hlt, List.length_append, List.length_append, Nat.add_assoc]
      exact Nat.le_add_right _ _
    rw [le_length] at hslice
    rw [hslice, hval, fromLe_le_of_lt (by omega)]
  · have hall : i = items.length := by omega
    rw [hall, List.take_length, hlen]

theorem ArrayBuffer.reads (h : ArrayBuffer items b) : readStringArray b = items := by
  rw [readStringArray, h.count]
  apply List.ext_getElem
  · rw [List.length_map, List.length_range]
  · intro i h₁ h₂
    have hnext : (items.take (i + 1)).flatten = (items.take i).flatten ++ items[i] := by
      rw [List.take_succ_eq_append_getElem h₂, List.flatten_append]
      simp
    have hsplit : b = (le 4 items.length ++
        (arrayOffsets (4 + 4 * items.length) items).flatMap (le 4) ++ (items.take i).flatten) ++
        (items[i] ++ (items.drop (i + 1)).flatten) := by
      conv_lhs => rw [h.eq, flatten_split h₂]
      simp only [List.append_assoc]
    have hfront : (le 4 items.length ++
        (arrayOffsets (4 + 4 * items.length) items).flatMap (le 4) ++
          (items.take i).flatten).length =
        4 + 4 * items.length + (items.take i).flatten.length := by
      rw [List.length_append, List.length_append, le_length, table_length, arrayOffsets_length]
    rw [List.getElem_map, List.getElem_range, h.start h₂.le, h.start h₂, hnext,
      List.length_append, ← Nat.add_assoc, Nat.add_sub_cancel_left]
    exact slice_of_split hsplit hfront

end

/-- A string array of less than 4 GiB reads back item by item. -/
theorem readStringArray_stringArray {items : List Bytes}
    (hsmall : (stringArray items).length < 2 ^ 32) :
    readStringArray (stringArray items) = items.map utf8ToUtf16le := by
  refine ArrayBuffer.reads ⟨?_, hsmall⟩
  have hbase : (4 + 4 * (items.map utf8ToUtf16le).length) % 2 ^ 32 =
      4 + 4 * (items.map utf8ToUtf16le).length := by
    refine Nat.mod_eq_of_lt (lt_of_le_of_lt ?_ hsmall)
    simp only [stringArray, List.length_append, le_length, table_length, arrayOffsets_length]
    omega
  rw [stringArray, hbase]

end PropertyContext

end Pst
end Imap2Pst
