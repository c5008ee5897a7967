import Imap2Pst.Pst.Lookup
import Imap2Pst.Pst.Node
import Mathlib.Data.List.Find

/-!
# Pst.FileReader

A finished file as a reader opens it: the header leads to the two B-trees, the node B-tree to the
nodes, the block B-tree to the octets of a block.

* `fileNode`, `fileStore` — a node and a block of a file.
* `Finished.covers`       — the blocks of a closed file are those that were written.
* `Finished.fileNode_eq`  — the nodes are those that were added, when no two have one NID.
-/

namespace Imap2Pst
namespace Pst

open CxxStd

def nbtEntryOf (row : Bytes) : NbtEntry :=
  ⟨fromLe (slice row 0 8), fromLe (slice row 8 8), fromLe (slice row 16 8), fromLe (slice row 24 4)⟩

def bbtEntryOf (row : Bytes) : BbtEntry :=
  ⟨fromLe (slice row 0 8), fromLe (slice row 8 8), fromLe (slice row 16 2)⟩

/-- The node of this NID, through the node B-tree. -/
def fileNode (f : File) (nid : Nat) : Option NbtEntry :=
  (searchTree f 8 (readRoot f).nbt.ib nid).map nbtEntryOf

/-- The block of this BID, through the block B-tree. -/
def fileStore (f : File) : Store := fun bid =>
  (searchTree f 8 (readRoot f).bbt.ib bid).map fun row =>
    f.read (bbtEntryOf row).ib (bbtEntryOf row).cb

/-! ## Entries -/

/-- The fields fit their octets. -/
structure NbtEntry.Fits (e : NbtEntry) : Prop where
  nid : e.nid < 2 ^ 32
  data : e.data < 256 ^ 8
  sub : e.sub < 256 ^ 8
  parent : e.parent < 2 ^ 32

theorem nbtEntryOf_nbtBytes {e : NbtEntry} (h : e.Fits) : nbtEntryOf (nbtBytes e) = e := by
  obtain ⟨hnid, hdata, hsub, hparent⟩ := h
  have hnid' : e.nid < 256 ^ 8 := by omega
  have hparent' : e.parent < 256 ^ 4 := by omega
  have hrow : nbtBytes e = [] ++ (le 8 e.nid ++
      (le 8 e.data ++ (le 8 e.sub ++ (le 4 e.parent ++ le 4 0)))) := by
    simp only [nbtBytes, List.append_assoc, List.nil_append]
  have h₀ := slice_of_split hrow (show ([] : Bytes).length = 0 from rfl)
  have h₁ := slice_of_split (a := le 8 e.nid) hrow (le_length 8 _)
  have h₂ := slice_of_split (a := le 8 e.nid ++ le 8 e.data)
    (hrow.trans (List.append_assoc _ _ _).symm) (show _ = 16 by simp)
  have h₃ := slice_of_split (a := le 8 e.nid ++ le 8 e.data ++ le 8 e.sub)
    ((hrow.trans (List.append_assoc _ _ _).symm).trans (List.append_assoc _ _ _).symm)
    (show _ = 24 by simp)
  rw [le_length] at h₀ h₁ h₂ h₃
  simp only [nbtEntryOf, h₀, h₁, h₂, h₃, fromLe_le_of_lt hnid', fromLe_le_of_lt hdata,
    fromLe_le_of_lt hsub, fromLe_le_of_lt hparent']

theorem bbtEntryOf_bbtBytes {e : BbtEntry} (hbid : e.bid < 256 ^ 8) (hib : e.ib < 256 ^ 8)
    (hcb : e.cb < 256 ^ 2) : bbtEntryOf (bbtBytes e) = e := by
  have hrow : bbtBytes e = [] ++ (le 8 e.bid ++
      (le 8 e.ib ++ (le 2 e.cb ++ (le 2 2 ++ le 4 0)))) := by
    simp only [bbtBytes, List.append_assoc, List.nil_append]
  have h₀ := slice_of_split hrow (show ([] : Bytes).length = 0 from rfl)
  have h₁ := slice_of_split (a := le 8 e.bid) hrow (le_length 8 _)
  have h₂ := slice_of_split (a := le 8 e.bid ++ le 8 e.ib)
    (hrow.trans (List.append_assoc _ _ _).symm) (show _ = 16 by simp)
  rw [le_length] at h₀ h₁ h₂
  simp only [bbtEntryOf, h₀, h₁, h₂, fromLe_le_of_lt hbid, fromLe_le_of_lt hib,
    fromLe_le_of_lt hcb]

/-! ## The trees of a closed file -/

/-- What a tree finds under the key of an entry, and under any other key. -/
theorem Indexes.lookup {α : Type} {f : File} {ptype : Byte} {size : Nat} {root : Bref}
    {table : List α} {key : α → Nat} {bytes : α → Bytes}
    (h : Indexes f ptype size root (table.map bytes))
    (hkey : ∀ a ∈ table, entryKey (bytes a) = key a) (k : Nat) :
    searchTree f 8 root.ib k = (table.find? fun a => key a = k).map bytes := by
  rw [h.search k, List.find?_map]
  congr 1
  refine List.find?_congr fun a ha => ?_
  rw [Function.comp_apply, hkey a ha]

section

variable {std : StdSort} {w w₂ : NdbWriter} {nbt bbt : Bref}

theorem Finished.retains (h : Finished std w w₂ nbt bbt) :
    Retains (closedFile w₂ nbt bbt) w₂.history := fun _ hx => read_closedFile nbt bbt h.sound hx

theorem Finished.nbtIndexes (h : Finished std w w₂ nbt bbt) (hnids : ∀ e ∈ w.nbt, e.nid < 256 ^ 8)
    (hnodup : (w.nbt.map NbtEntry.nid).Nodup) :
    Indexes (closedFile w₂ nbt bbt) kPTypeNBT kSizeNBTEntry nbt (w.nbt.map nbtBytes) := by
  have htree := h.nbtTree hnids _ h.retains
  rw [h.nbtSorted] at htree
  have hkey : ∀ e ∈ w.nbt, entryKey (nbtBytes e) = e.nid := fun e he => nbtBytes_key (hnids e he)
  exact htree.indexes ((std.perm _ _).map nbtBytes) (ordered_sort std _ hkey)
    ((map_entryKey hkey).symm ▸ hnodup)

theorem Finished.bbtIndexes (h : Finished std w w₂ nbt bbt) (hs : Sound w) :
    Indexes (closedFile w₂ nbt bbt) kPTypeBBT kSizeBBTEntry bbt (w.bbt.map bbtBytes) := by
  have htree := h.bbtTree _ h.retains
  rw [h.bbtSorted] at htree
  have hkey : ∀ e ∈ w.bbt, entryKey (bbtBytes e) = e.bid :=
    fun e he => bbtBytes_key (hs.bbt_fits e he)
  exact htree.indexes ((std.perm _ _).map bbtBytes) (ordered_sort std _ hkey)
    ((map_entryKey hkey).symm ▸ hs.bbt_nodup)

/-- Every block that was written is found in the closed file. -/
theorem Finished.covers (h : Finished std w w₂ nbt bbt) (hs : Sound w) :
    Covers (fileStore (closedFile w₂ nbt bbt)) w := by
  rintro bid data ⟨ib, hmem⟩
  have hentry : ⟨bid, ib, data.length⟩ ∈ w.bbt :=
    hs.blocks.mem_iff.1 (List.mem_filterMap.2 ⟨_, hmem, rfl⟩)
  have hfits := Rooted.fits ⟨_, hmem, rfl, rfl⟩ hs
  obtain ⟨data', hlen, hle, -⟩ := hs.made _ hmem
  have hcb : data.length < 256 ^ 2 := by
    have hmax : kMaxBlockData = 8176 := rfl
    omega
  have hsearch := (h.bbtIndexes hs).lookup (fun e he => bbtBytes_key (hs.bbt_fits e he)) bid
  rw [(find?_key_eq_some hs.bbt_nodup).2 ⟨hentry, rfl⟩] at hsearch
  have hread := File.read_middle (a := []) (b := data) (c := List.replicate _ 0 ++ _)
    ((h.retains _ (h.history.subset hmem)).trans
      (by simp only [blockImage, List.nil_append, List.append_assoc]; rfl))
  rw [fileStore, h.readRoot, hsearch, Option.map_some, Option.map_some,
    bbtEntryOf_bbtBytes hfits.1 hfits.2 hcb]
  exact congrArg some hread

/-- The nodes of the closed file are those of the table. -/
theorem Finished.fileNode_eq (h : Finished std w w₂ nbt bbt) (hfits : ∀ e ∈ w.nbt, e.Fits)
    (hnodup : (w.nbt.map NbtEntry.nid).Nodup) (nid : Nat) :
    fileNode (closedFile w₂ nbt bbt) nid = w.nbt.find? fun e => e.nid = nid := by
  have hnids : ∀ e ∈ w.nbt, e.nid < 256 ^ 8 := fun e he => (hfits e he).nid.trans (by decide)
  have hsearch := (h.nbtIndexes hnids hnodup).lookup (fun e he => nbtBytes_key (hnids e he)) nid
  rw [fileNode, h.readRoot, hsearch, Option.map_map]
  cases hfind : w.nbt.find? fun e => e.nid = nid with
  | none => rfl
  | some e =>
    rw [Option.map_some, Function.comp_apply,
      nbtEntryOf_nbtBytes (hfits e (List.mem_of_find?_eq_some hfind))]

end

end Pst
end Imap2Pst
