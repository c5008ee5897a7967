import Imap2Pst.Pst.Subnodes

/-!
# Pst.Node

A node under construction, and a node as a reader sees it: the blocks of its heap, its subnodes,
and what its HNIDs stand for.

* `Building` — calls of a body that builds a heap beside the subnodes of its node.
* `readNode` — a node from its data BID and its subnode BID.
* `NodeAt` — a node as the writer leaves it; `NodeAt.reads`: it can be read.
* `Stored.leaves` — what was stored under an HNID is found under it.
-/

namespace Imap2Pst
namespace Pst

open CxxStd

/-! ## Building -/

/-- Calls of a body with a heap of its own. -/
abbrev Building := EStateM PstError ((NdbWriter × SubnodeAllocator) × HeapNode)

/-- A value goes to the heap, or to a subnode when no heap block can take it. -/
def storeBytes (data : Bytes) : Building Nat :=
  if data.length ≤ maxAllocSize then onLocal (HeapNode.alloc data)
  else onOuter (SubnodeAllocator.spill data)

/-- More was written, and nothing that was there moved. -/
structure Extends (t t' : (NdbWriter × SubnodeAllocator) × HeapNode) : Prop where
  grows : Grows t.1.1 t'.1.1
  heap : t.2.Grows t'.2
  entries : t.1.2.entries ⊆ t'.1.2.entries
  ok : t'.1.2.Ok

abbrev StoredIn (t : (NdbWriter × SubnodeAllocator) × HeapNode) (hnid : Nat)
    (leaves : List Bytes) : Prop := Stored t.1.1 t.2.blocks t.1.2.entries hnid leaves

theorem Extends.refl {t : (NdbWriter × SubnodeAllocator) × HeapNode} (hs : Sound t.1.1)
    (hsub : t.1.2.Ok) (hok : t.2.Ok) : Extends t t :=
  ⟨Grows.refl hs, HeapNode.Grows.refl hok, List.Subset.refl _, hsub⟩

theorem Extends.trans {t t' t'' : (NdbWriter × SubnodeAllocator) × HeapNode} (h : Extends t t')
    (h' : Extends t' t'') : Extends t t'' :=
  ⟨h.grows.trans h'.grows, h.heap.trans h'.heap, List.Subset.trans h.entries h'.entries, h'.ok⟩

theorem Stored.extends {t t' : (NdbWriter × SubnodeAllocator) × HeapNode} {hnid : Nat}
    {leaves : List Bytes} (hs : StoredIn t hnid leaves) (h : Extends t t') :
    StoredIn t' hnid leaves := hs.mono h.grows h.heap.items h.entries

/-- The heap alone goes on. -/
theorem Extends.of_heap {w : NdbWriter} {s : SubnodeAllocator} {h h' : HeapNode} (hs : Sound w)
    (hsub : s.Ok) (hg : h.Grows h') : Extends ((w, s), h) ((w, s), h') :=
  ⟨Grows.refl hs, hg, List.Subset.refl _, hsub⟩

/-- The HNID that comes back stands for the value. -/
theorem storeBytes_spec {data : Bytes} {hnid : Nat}
    {t t' : (NdbWriter × SubnodeAllocator) × HeapNode} (hrun : storeBytes data t = .ok hnid t')
    (hs : Sound t.1.1) (hsub : t.1.2.Ok) (hok : t.2.Ok) :
    Extends t t' ∧ hnid ≠ 0 ∧ hnid < 2 ^ 32 ∧
      ∃ leaves, StoredIn t' hnid leaves ∧ leaves.flatten = data := by
  obtain ⟨⟨w, s⟩, h⟩ := t
  obtain ⟨⟨w', s'⟩, h'⟩ := t'
  unfold storeBytes at hrun
  rcases ite_eq_ok.1 hrun with ⟨_, hrun⟩ | ⟨_, hrun⟩
  · obtain ⟨halloc, heq⟩ := onLocal_eq_ok.1 hrun
    cases heq
    obtain ⟨hg, hitem, _⟩ := HeapNode.alloc_spec halloc hok
    obtain ⟨hpos, hlt, _⟩ := hg.ok.hid hitem
    exact ⟨.of_heap hs hsub hg, hpos.ne', hlt, _, .heap hitem, by simp⟩
  · obtain ⟨hspill, rfl⟩ := onOuter_eq_ok.1 hrun
    obtain ⟨hg, hsok, hentries, hlt, hstored⟩ := SubnodeAllocator.spill_stored hspill hs hsub
    have hne : hnid ≠ 0 := by
      rintro rfl
      have hzero := hstored h.blocks
      generalize leavesOf data = leaves at hzero
      cases hzero with
      | heap hitem => exact lt_irrefl 0 (hok.hid hitem).1
      | subnode _ _ htype _ => cases htype
    exact ⟨⟨hg, HeapNode.Grows.refl hok, hentries, hsok⟩, hne, hlt, _, hstored h.blocks,
      leavesOf_flatten data⟩

/-! ## Reading -/

structure NodeView where
  blocks : List Bytes
  subnodes : List SubnodeEntry

def readNode (store : Store) (data sub : Nat) : Option NodeView := do
  let blocks ← readTree store data
  let subnodes ← readSubnodes store sub
  pure ⟨blocks, subnodes⟩

namespace NodeView

def subnode (n : NodeView) (nid : Nat) : Option SubnodeEntry := n.subnodes.find? fun e => e.nid = nid

/-- The leaves an HNID stands for; an allocation of the heap is a single leaf. -/
def leaves (store : Store) (n : NodeView) (hnid : Nat) : Option (List Bytes) :=
  if hnidIsHid hnid then (heapItem n.blocks hnid).map fun item => [item]
  else (n.subnode hnid).bind fun e => readTree store e.data

def value (store : Store) (n : NodeView) (hnid : Nat) : Option Bytes :=
  (n.leaves store hnid).map List.flatten

end NodeView

/-- A node with this heap and these subnodes has been written. -/
structure NodeAt (w : NdbWriter) (data sub : Nat) (h : HeapNode) (entries : List SubnodeEntry) :
    Prop where
  tree : ∃ blocks, Tree w data blocks ∧ HeapImage blocks h.blocks ∧
    heapUserRoot blocks = some h.userRoot
  ok : h.Ok
  subnodes : ∃ sorted : List SubnodeEntry, sorted.Perm entries ∧ SubnodesAt w sub sorted
  nodup : (entries.map SubnodeEntry.nid).Nodup

theorem NodeAt.mono {w w' : NdbWriter} {data sub : Nat} {h : HeapNode}
    {entries : List SubnodeEntry} (hn : NodeAt w data sub h entries) (hg : Grows w w') :
    NodeAt w' data sub h entries := by
  obtain ⟨blocks, htree, himage, hroot⟩ := hn.tree
  obtain ⟨sorted, hperm, hsub⟩ := hn.subnodes
  exact ⟨⟨blocks, htree.mono hg, himage, hroot⟩, hn.ok, ⟨sorted, hperm, hsub.mono hg⟩, hn.nodup⟩

/-- What a reader has of such a node. -/
structure NodeReads (n : NodeView) (h : HeapNode) (entries : List SubnodeEntry) : Prop where
  finds : HeapNode.Finds (heapItem n.blocks) h
  root : heapUserRoot n.blocks = some h.userRoot
  entry : ∀ e ∈ entries, n.subnode e.nid = some e
  perm : n.subnodes.Perm entries

theorem NodeAt.reads {w : NdbWriter} {data sub : Nat} {h : HeapNode} {entries : List SubnodeEntry}
    (hn : NodeAt w data sub h entries) {store : Store} (hc : Covers store w) :
    ∃ n, readNode store data sub = some n ∧ NodeReads n h entries := by
  obtain ⟨blocks, htree, himage, hroot⟩ := hn.tree
  obtain ⟨sorted, hperm, hsub⟩ := hn.subnodes
  refine ⟨⟨blocks, sorted⟩, ?_, ?_, hroot, ?_, hperm⟩
  · simp only [readNode, readTree, htree store hc, hsub store hc, Option.bind_eq_bind,
      Option.bind_some]
    rfl
  · intro hid item hitem
    exact himage.item hn.ok.packed hn.ok.count hitem
  · intro e he
    have hnodup := (hperm.map SubnodeEntry.nid).nodup_iff.2 hn.nodup
    exact (find?_key_eq_some hnodup).2 ⟨hperm.mem_iff.2 he, rfl⟩

theorem Stored.leaves {w : NdbWriter} {h : HeapNode} {entries : List SubnodeEntry} {hnid : Nat}
    {leaves : List Bytes} (hs : Stored w h.blocks entries hnid leaves) (hok : h.Ok) {n : NodeView}
    (hn : NodeReads n h entries) {store : Store} (hc : Covers store w) :
    n.leaves store hnid = some leaves := by
  cases hs with
  | heap hitem =>
    rw [NodeView.leaves, if_pos (hok.hid hitem).2.2, hn.finds _ _ hitem]
    rfl
  | @subnode e leaves hmem hentry htype tree =>
    rw [NodeView.leaves, htype, ← hentry, hn.entry e hmem]
    exact tree store hc

theorem Stored.value {w : NdbWriter} {h : HeapNode} {entries : List SubnodeEntry} {hnid : Nat}
    {leaves : List Bytes} (hs : Stored w h.blocks entries hnid leaves) (hok : h.Ok) {n : NodeView}
    (hn : NodeReads n h entries) {store : Store} (hc : Covers store w) :
    n.value store hnid = some leaves.flatten := by
  rw [NodeView.value, hs.leaves hok hn hc]
  rfl

/-- The stream of an in-memory heap and the subnodes, before they are written out. -/
theorem nodeReads_of_heap {h : HeapNode} {entries : List SubnodeEntry} (hok : h.Ok)
    (hroot : h.userRoot < 2 ^ 32) (hnodup : (entries.map SubnodeEntry.nid).Nodup) :
    NodeReads ⟨pieces kMaxBlockData h.serialize, entries⟩ h entries := by
  have hsome : h.blocks ≠ [] := by simp [HeapNode.blocks]
  rw [HeapNode.pieces_serialize hok.packed]
  refine ⟨fun hid item hitem => ?_, ?_, fun e he => ?_, .refl _⟩
  · exact (HeapNode.rendered_image hok.packed).item hok.packed hok.count hitem
  · exact heapUserRoot_renderAll hok.packed hsome (HeapNode.fillLevels_length _) hroot
  · exact (find?_key_eq_some hnodup).2 ⟨he, rfl⟩

/-- An in-memory heap and its subnodes, written out. -/
theorem nodeAt_of_writes {std : StdSort} {h : HeapNode} {s : SubnodeAllocator}
    {w w₁ w₂ : NdbWriter} {data sub : Nat} (hdata : writeData h.serialize w = .ok data w₁)
    (hsub : writeSubnodes std s.entries w₁ = .ok sub w₂) (hs : Sound w) (hok : h.Ok)
    (hroot : h.userRoot < 2 ^ 32) (hsok : s.Ok) :
    Grows w w₂ ∧ NodeAt w₂ data sub h s.entries ∧ data < 256 ^ 8 ∧ sub < 256 ^ 8 := by
  obtain ⟨hg, htree⟩ := writeData_tree hdata hs
  obtain ⟨hg', hcount, hlt, hreads⟩ := writeSubnodes_reads hsub hg.sound hsok.fits
  have himage := HeapNode.rendered_image hok.packed
  have hleaves : leavesOf h.serialize = h.rendered := by
    rw [leavesOf, if_neg, HeapNode.pieces_serialize hok.packed]
    intro hnil
    have hpieces := HeapNode.pieces_serialize hok.packed
    rw [hnil, pieces_nil (by decide)] at hpieces
    have hlen := himage.length
    rw [← hpieces] at hlen
    simp [HeapNode.blocks] at hlen
  have hsome : h.blocks ≠ [] := by simp [HeapNode.blocks]
  rw [hleaves] at htree
  refine ⟨hg.trans hg', ⟨⟨_, htree.mono hg', himage, ?_⟩, hok, ⟨_, std.perm _ _, hreads⟩,
    hsok.nodup hcount⟩, htree.bid_lt hg.sound, hlt⟩
  exact heapUserRoot_renderAll hok.packed hsome (HeapNode.fillLevels_length _) hroot

end Pst
end Imap2Pst
