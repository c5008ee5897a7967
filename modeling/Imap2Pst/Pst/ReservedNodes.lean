import Imap2Pst.Pst.Plans

/-!
# Pst.ReservedNodes

The nodes that every store comes with, whatever is in it: the templates of tables, two indexes
for the reader to fill, and nodes that are declared without data.

* `HeapNode.patch_spec`            — an allocation is rewritten in place.
* `writeIndex_realizes`           — an index without entries.
* `writeReservedNodes_realizes`   — all of them, in their order.
-/

namespace Imap2Pst
namespace Pst
open CxxStd

namespace HeapNode

/-- An allocation rewritten at its size takes the room it took. -/
theorem rewrite_used {b : HeapBlock} {k : Nat} {old data : Bytes} (hk : b.items[k]? = some old)
    (hlen : data.length = old.length) : (b.rewrite k data).used = b.used := by
  obtain ⟨hlt, hget⟩ := List.getElem?_eq_some_iff.1 hk
  have hsame : (b.items.map List.length).set k data.length = b.items.map List.length := by
    have hk' : k < (b.items.map List.length).length := by rwa [List.length_map]
    have hself := List.set_getElem_self hk'
    rw [List.getElem_map, hget, ← hlen] at hself
    exact hself
  show (b.items.set k data).flatten.length = _
  rw [b.used_eq, List.length_flatten, List.length_flatten, List.map_set, hsame]

/-- A heap with one block changed. -/
theorem patch_blocks {h h' : HeapNode} {hid : Nat} {data : Bytes} {u : Unit}
    (hrun : patch hid data h = .ok u h') :
    h'.clientSig = h.clientSig ∧ h'.userRoot = h.userRoot ∧
    ((h.blocks.getD (hidBlockIndex hid) {}).items.getD (hidAllocIndex hid - 1) []).length =
      data.length ∧
    ∀ i, h'.blocks[i]? = if i = hidBlockIndex hid
      then (h.blocks[i]?).map fun b => b.rewrite (hidAllocIndex hid - 1) data
      else h.blocks[i]? := by
  unfold patch at hrun
  obtain ⟨_, _, hget, hrun⟩ := bind_eq_ok.1 hrun
  obtain ⟨rfl, rfl⟩ := get_eq_ok.1 hget
  rcases ite_eq_ok.1 hrun with ⟨_, hrun⟩ | ⟨hknown, hrun⟩
  · obtain ⟨_, _, hthrow, _⟩ := bind_eq_ok.1 hrun
    cases hthrow
  rcases ite_eq_ok.1 hrun with ⟨_, hrun⟩ | ⟨hsize, hrun⟩
  · obtain ⟨_, _, hthrow, _⟩ := bind_eq_ok.1 hrun
    cases hthrow
  have hblock : hidBlockIndex hid < h.blocks.length := by
    by_contra hge
    exact hknown (.inl (not_lt.1 hge))
  rw [blocks, List.length_append, List.length_singleton] at hblock
  rcases ite_eq_ok.1 hrun with ⟨hfull, hset⟩ | ⟨hlast, hset⟩
  · cases set_eq_ok.1 hset
    refine ⟨rfl, rfl, not_not.1 hsize, fun i => ?_⟩
    show (h.full.modify _ _ ++ [h.last])[i]? = _
    rcases Nat.lt_or_ge i h.full.length with hi | hi
    · rw [blocks, List.getElem?_append_left (by rwa [List.length_modify]),
        List.getElem?_append_left hi, List.getElem?_modify]
      by_cases hij : i = hidBlockIndex hid
      · rw [if_pos hij, ← hij]
        simp only [if_true]
        rfl
      · rw [if_neg hij]
        simp only [if_neg (Ne.symm hij), id_map']
    · rw [if_neg (by omega), blocks, List.getElem?_append_right (by rwa [List.length_modify]),
        List.getElem?_append_right hi, List.length_modify]
  · cases set_eq_ok.1 hset
    refine ⟨rfl, rfl, not_not.1 hsize, fun i => ?_⟩
    show (h.full ++ [_])[i]? = _
    have hsame : hidBlockIndex hid = h.full.length := by omega
    rcases Nat.lt_or_ge i h.full.length with hi | hi
    · rw [if_neg (by omega), blocks, List.getElem?_append_left hi, List.getElem?_append_left hi]
    · rw [blocks, List.getElem?_append_right hi, List.getElem?_append_right hi,
        List.getElem?_singleton, List.getElem?_singleton]
      split <;> split <;> first | rfl | omega

/-- The item is rewritten, and the others stay. -/
theorem patch_spec {h h' : HeapNode} {hid : Nat} {old data : Bytes} {u : Unit}
    (hrun : patch hid data h = .ok u h') (hok : h.Ok) (hitem : HasItem h.blocks hid old) :
    h'.Ok ∧ HasItem h'.blocks hid data ∧
    (∀ hid' item, hid' ≠ hid → HasItem h.blocks hid' item → HasItem h'.blocks hid' item) ∧
    h'.clientSig = h.clientSig ∧ h'.userRoot = h.userRoot := by
  obtain ⟨hsig, hroot, hsize, hblocks⟩ := patch_blocks hrun
  obtain ⟨i, b, k, hb, hk, rfl⟩ := hitem
  obtain ⟨hi, -⟩ := List.getElem?_eq_some_iff.1 hb
  obtain ⟨hlt, -⟩ := List.getElem?_eq_some_iff.1 hk
  have hslots := (hok.packed i b hb).slots
  have hslot : k + 1 < 2 ^ 11 := by omega
  have hi' : i < 2 ^ 16 := hi.trans_le hok.count
  rw [hidBlockIndex_makeHid hi' hslot, hidAllocIndex_makeHid hi' hslot, Nat.add_sub_cancel]
    at hblocks hsize
  rw [List.getD_eq_getElem?_getD (l := h.blocks), hb, Option.getD_some,
    List.getD_eq_getElem?_getD, hk, Option.getD_some] at hsize
  have hused := rewrite_used hk hsize.symm
  refine ⟨⟨fun j b' hb' => ?_, ?_⟩,
    ⟨i, _, k, (hblocks i).trans (by rw [if_pos rfl, hb]; rfl), ?_, rfl⟩,
    fun hid' item hne hitem => ?_, hsig, hroot⟩
  · rw [hblocks j] at hb'
    split at hb'
    · rename_i hij
      rw [hij, hb] at hb'
      cases hb'
      have hroomy := hok.packed i b hb
      rw [hij]
      refine ⟨?_, ?_⟩
      · rw [hused]
        show _ + pageMapSize (b.items.set k data).length + 1 ≤ _
        rw [List.length_set]
        exact hroomy.room
      · show (b.items.set k data).length ≤ 2047
        rw [List.length_set]
        exact hroomy.slots
    · exact hok.packed j b' hb'
  · suffices hlen : h'.blocks.length = h.blocks.length from hlen.trans_le hok.count
    apply le_antisymm
    · by_contra hgt
      have hnone := hblocks h.blocks.length
      rw [List.getElem?_eq_none le_rfl, Option.map_none, ite_self,
        List.getElem?_eq_none_iff] at hnone
      omega
    · by_contra hgt
      have hnone := hblocks h'.blocks.length
      rw [List.getElem?_eq_none le_rfl, List.getElem?_eq_getElem (l := h.blocks) (by omega)]
        at hnone
      split at hnone <;> cases hnone
  · show (b.items.set k data)[k]? = some data
    rw [List.getElem?_set_self hlt]
  · obtain ⟨j, c, l, hc, hl, rfl⟩ := hitem
    by_cases hij : j = i
    · subst hij
      rw [hb] at hc
      cases hc
      have hkl : k ≠ l := fun heq => hne (by rw [heq])
      refine ⟨j, _, l, (hblocks j).trans (by rw [if_pos rfl, hb]; rfl), ?_, rfl⟩
      show (b.items.set k data)[l]? = some item
      rw [List.getElem?_set_ne hkl, hl]
    · exact ⟨j, c, l, (hblocks j).trans (by rw [if_neg hij, hc]), hl, rfl⟩

/-- An HID stands for one item. -/
theorem Ok.item_unique {h : HeapNode} (hok : h.Ok) {hid : Nat} {item item' : Bytes}
    (hi : HasItem h.blocks hid item) (hi' : HasItem h.blocks hid item') : item = item' := by
  have himage := rendered_image hok.packed
  exact Option.some.inj ((himage.item hok.packed hok.count hi).symm.trans
    (himage.item hok.packed hok.count hi'))

end HeapNode

/-! ## Indexes -/

/-- The heap of an index: the user root is an item that holds the HID of an empty tree. -/
theorem indexHeap_spec {std : StdSort} {keySize : Nat} {h h' : HeapNode} {u : Unit}
    (hrun : PstWriter.indexHeap std keySize h = .ok u h') (hok : h.Ok) :
    h'.Ok ∧ h'.userRoot < 2 ^ 32 ∧ ∃ hid, HasItem h'.blocks h'.userRoot (le 4 hid) ∧
      HasItem h'.blocks hid (bthHeader keySize 4 0 0) := by
  unfold PstWriter.indexHeap at hrun
  obtain ⟨slot, h₁, halloc, hrun⟩ := bind_eq_ok.1 hrun
  obtain ⟨bth, h₂, hbuild, hrun⟩ := bind_eq_ok.1 hrun
  obtain ⟨_, h₃, hpatch, hroot⟩ := bind_eq_ok.1 hrun
  cases modify_eq_ok.1 hroot
  obtain ⟨hg₁, hslot, -⟩ := HeapNode.alloc_spec halloc hok
  have hnone : std.sort (byKey BthRecord.order) [] = [] := List.perm_nil.1 (std.perm _ _)
  have hheader : HeapNode.alloc (bthHeader keySize 4 0 0) h₁ = .ok bth h₂ := by
    unfold buildBth buildBthInto at hbuild
    simp only [hnone, if_true] at hbuild
    exact hbuild
  obtain ⟨hg₂, hbth, -⟩ := HeapNode.alloc_spec hheader hg₁.ok
  have hslot₂ := hg₂.items _ _ hslot
  obtain ⟨hok₃, hitem, hothers, -, -⟩ := HeapNode.patch_spec hpatch hg₂.ok hslot₂
  have hne : bth ≠ slot := by
    rintro rfl
    have hlength := congrArg List.length (hg₂.ok.item_unique hbth hslot₂)
    simp [bthHeader] at hlength
  exact ⟨⟨hok₃.packed, hok₃.count⟩, (hok₃.hid_range hitem).2, bth, hitem, hothers bth _ hne hbth⟩

namespace PstWriter

section

variable {std : StdSort}

theorem writeIndex_realizes {nid keySize : Nat} {clientSig : Byte} (hnid : nid < 2 ^ 32)
    (hkey : keySize < 256) : Realizes [.index nid] (writeIndex std nid clientSig keySize) := by
  intro w u w'' hrun hs
  unfold writeIndex at hrun
  obtain ⟨⟨_, h⟩, w', hlocal, hnode⟩ := bind_eq_ok.1 hrun
  obtain ⟨hheap, hw⟩ := onLocal_eq_ok.1 (withLocal_eq_ok.1 hlocal)
  dsimp only at hheap hw
  subst hw
  obtain ⟨hok, hroot, hid, hslot, hheader⟩ := indexHeap_spec hheap (HeapNode.ok_new clientSig)
  refine view_of_heap hnode hs hok hroot SubnodeAllocator.ok_new hnid (by decide)
    fun store n hc hreads => ⟨h.userRoot, hid, hreads.root, hreads.finds _ _ hslot, fun k => ?_⟩
  rw [bthLookup_header (hreads.finds _ _ hheader) hkey (by decide) (by decide) (by decide)]
  rfl

/-! ## Templates -/

/-- The rows of a template have ids of their own, and fill its columns. -/
theorem tabular_template {ipmSubtree : Nat} (hipm : ipmSubtree < 2 ^ 32) {t : Nat × List Nat}
    (ht : t ∈ kTemplates) : Tabular t.2 (templateRows ipmSubtree t.1) := by
  have hfew : ∀ t ∈ kTemplates, t.2.length ≤ 253 ∧ ∀ tag ∈ t.2, tag < 2 ^ 32 := by decide
  have hdeclared : ∀ t ∈ kTemplates, t.1 = makeNid kNidTypeReceiveFolderTable 0x31 →
      [PR_MESSAGE_CLASS, PR_PST_RECEIVE_FOLDER] ⊆ t.2 := by decide
  unfold templateRows
  split
  · rename_i hreceive
    refine Tabular.of_shape [(PR_MESSAGE_CLASS, 0), (PR_PST_RECEIVE_FOLDER, 4)] (hfew t ht).1
      (hfew t ht).2 (fun r hr => ?_) (fun r hr => ?_) (by decide) (hdeclared t ht hreceive)
      (by decide)
    · rw [List.mem_singleton.1 hr]
      exact hipm
    · rw [List.mem_singleton.1 hr]
      rfl
  · exact ⟨(hfew t ht).1, (hfew t ht).2, fun _ h => absurd h List.not_mem_nil,
      fun _ h => absurd h List.not_mem_nil, fun _ h => absurd h List.not_mem_nil,
      fun _ h => absurd h List.not_mem_nil⟩

theorem nodup_template (ipmSubtree nid : Nat) :
    ((templateRows ipmSubtree nid).map RowCalls.rowId).Nodup := by
  unfold templateRows
  split
  · exact List.nodup_singleton _
  · exact List.nodup_nil

/-! ## The reserved nodes -/

def templatePlans (ipmSubtree : Nat) : List NodePlan :=
  kTemplates.map fun t => .table t.1 0 t.2 (templateRows ipmSubtree t.1)

/-- The nodes that are declared with no data at all. -/
def kDeclared : List Nat := [kNidSearchManagementQ, 0xE41, 0xEC1, 0xF21]

def reservedPlans (ipmSubtree : Nat) : List NodePlan :=
  templatePlans ipmSubtree ++
    ([.void kNidSearchActivityList, .bare kNidSearchDomainObject, .index kNidHmpGuidMap,
      .index kNidHmpIdMap] ++ kDeclared.map NodePlan.bare)

theorem zero_lt_parent : 0 < 2 ^ 32 := by decide

theorem bare_realizes {nid : Nat} (hnid : nid < 2 ^ 32) :
    Realizes [.bare nid] (addNode nid 0 0 0) := fun _ _ _ hrun hs =>
  realizes_addNode (p := .bare nid) hnid (by decide) (by decide) zero_lt_parent hrun hs
    fun _ _ => ⟨rfl, rfl⟩

/-- A block without octets, and a node of it. -/
theorem void_realizes {nid : Nat} (hnid : nid < 2 ^ 32) :
    Realizes [.void nid] (do let data ← writeData []; addNode nid data 0 0) := by
  intro w u w'' hrun hs
  obtain ⟨data, w', hdata, hadd⟩ := bind_eq_ok.1 hrun
  have hchunk : writeLeafChunk [] w = .ok data w' := by
    rw [← hdata, writeData, if_pos (by decide : ([] : Bytes).length ≤ kMaxBlockData)]
    rfl
  obtain ⟨hg, hleaf⟩ := writeLeafChunk_leaf hchunk hs
  obtain ⟨ib, hmem⟩ := hleaf.held
  obtain ⟨es, hadds, hplanned⟩ := realizes_addNode (p := .void nid) hnid
    (Rooted.fits ⟨_, hmem, rfl, rfl⟩ hg.sound).1 (by decide) zero_lt_parent hadd hg.sound
    fun store hc => ⟨hc _ _ hleaf.held, rfl⟩
  exact ⟨es, hg.adds.trans hadds, hplanned⟩

theorem writeReservedNodes_realizes {ipmSubtree : Nat} (hipm : ipmSubtree < 2 ^ 32) :
    Realizes (reservedPlans ipmSubtree) (writeReservedNodes std ipmSubtree) := by
  have hnids : ∀ t ∈ kTemplates, t.1 < 2 ^ 32 := by decide
  have hdeclared : ∀ nid ∈ kDeclared, nid < 2 ^ 32 := by decide
  unfold writeReservedNodes reservedPlans templatePlans
  refine realizes_bind (realizes_each fun t ht => writeTable_realizes (hnids t ht) zero_lt_parent
    (tabular_template hipm ht) fun _ => nodup_template ipmSubtree t.1) fun _ => ?_
  intro w u w' hrun hs
  obtain ⟨data, w₁, hdata, hrun⟩ := bind_eq_ok.1 hrun
  obtain ⟨_, w₂, hadd, hrest⟩ := bind_eq_ok.1 hrun
  have hvoid : (do let data ← writeData []; addNode kNidSearchActivityList data 0 0 : Ndb Unit) w =
      .ok () w₂ := bind_eq_ok.2 ⟨data, w₁, hdata, hadd⟩
  obtain ⟨es, hadds, hplanned⟩ := void_realizes (by decide) w () w₂ hvoid hs
  have hdomain : Realizes [.bare kNidSearchDomainObject] (addNode kNidSearchDomainObject 0 0 0) :=
    bare_realizes (by decide)
  have hguids : Realizes [.index kNidHmpGuidMap] (writeIndex std kNidHmpGuidMap kHnSigHmpGuid 16) :=
    writeIndex_realizes (by decide) (by decide)
  have hids : Realizes [.index kNidHmpIdMap] (writeIndex std kNidHmpIdMap kHnSigHmpId 4) :=
    writeIndex_realizes (by decide) (by decide)
  have hlater := realizes_bind hdomain fun _ => realizes_bind hguids fun _ =>
    realizes_bind hids fun _ =>
    realizes_bind (realizes_each fun nid hnid => bare_realizes (hdeclared nid hnid)) fun _ =>
      realizes_of_moves (moves_pure (R := SoundlyGrows) ())
  obtain ⟨es', hadds', hplanned'⟩ := hlater w₂ u w' hrest hadds.sound
  exact ⟨es ++ es', hadds.trans hadds', List.rel_append (hplanned.adds hadds') hplanned'⟩

end

end PstWriter

end Pst
end Imap2Pst
