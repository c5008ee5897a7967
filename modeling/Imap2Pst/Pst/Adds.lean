import Imap2Pst.Pst.FileReader
import Imap2Pst.Pst.TableNode

/-!
# Pst.Adds

Nodes that are added to the file between the blocks. What is in the blocks does not depend on the
table of nodes.

* `Adds`            — the file grows, and some nodes are added.
* `TableAt.adds`    — a table stays where it is.
* `Streams.adds`    — so does what a streaming table has handed over.
-/

namespace Imap2Pst
namespace Pst

open CxxStd

/-- The file grows, and these nodes are added. -/
structure Adds (es : List NbtEntry) (w w' : NdbWriter) : Prop where
  sound : Sound w'
  history : w.history <+: w'.history
  nbt : w'.nbt = w.nbt ++ es
  finished : w'.finished = w.finished

section

variable {es es' : List NbtEntry} {w w' w'' : NdbWriter}

theorem Grows.adds (h : Grows w w') : Adds [] w w' :=
  ⟨h.sound, h.history, by rw [h.nbt, List.append_nil], h.finished⟩

theorem Adds.trans (h : Adds es w w') (h' : Adds es' w' w'') : Adds (es ++ es') w w'' :=
  ⟨h'.sound, h.history.trans h'.history, by rw [h'.nbt, h.nbt, List.append_assoc],
    h'.finished.trans h.finished⟩

/-- But for the nodes the file has grown. -/
theorem Adds.grows (h : Adds es w w') : Grows w { w' with nbt := w.nbt } :=
  ⟨h.sound.reindex (List.Perm.refl _) _ _, h.history, rfl, h.finished⟩

theorem addNode_adds {nid data sub parent : Nat} {u : Unit}
    (h : addNode nid data sub parent w = .ok u w') (hs : Sound w) :
    Adds [⟨nid, data, sub, parent⟩] w w' := by
  cases modify_eq_ok.1 h
  exact ⟨hs.reindex (List.Perm.refl _) _ _, List.prefix_rfl, rfl, rfl⟩

theorem Covers.of_adds {store : Store} (hc : Covers store w') (h : Adds es w w') :
    Covers store w := by
  have hc' : Covers store { w' with nbt := w.nbt } := hc
  exact hc'.of_grows h.grows

end

/-! ## What the table of nodes has no part in -/

section

variable {w : NdbWriter} {blocks : List HeapBlock} {entries : List SubnodeEntry}

theorem Stored.reindex {hnid : Nat} {leaves : List Bytes} (h : Stored w blocks entries hnid leaves)
    (nbt : List NbtEntry) : Stored { w with nbt } blocks entries hnid leaves := by
  cases h with
  | heap hitem => exact .heap hitem
  | subnode hmem hentry htype tree => exact .subnode hmem hentry htype tree

theorem RowHolds.reindex {lay : Layout} {row : Bytes} {cells : Nat → Option Bytes}
    (h : RowHolds w blocks entries lay row cells) (nbt : List NbtEntry) :
    RowHolds { w with nbt } blocks entries lay row cells := by
  refine ⟨h.length, fun c hc => ?_⟩
  have hcell := h.cell c hc
  generalize lay.field row c = field at hcell ⊢
  generalize cells c.tag = cell at hcell ⊢
  cases hcell with
  | none => exact .none
  | some hf =>
    refine .some ?_
    unfold FieldOf at hf ⊢
    split
    · rename_i hfixed
      rwa [if_pos hfixed] at hf
    · rename_i hvariable
      rw [if_neg hvariable] at hf
      obtain ⟨hnid, hf, hlt, hempty | ⟨hne, leaves, hstored, hflat⟩⟩ := hf
      · exact ⟨hnid, hf, hlt, .inl hempty⟩
      · exact ⟨hnid, hf, hlt, .inr ⟨hne, leaves, hstored.reindex nbt, hflat⟩⟩

theorem TableIn.reindex {h : HeapNode} {std : StdSort} {lay : Layout} {rows : List RowSpec}
    (ht : TableIn w h entries std lay rows) (nbt : List NbtEntry) :
    TableIn { w with nbt } h entries std lay rows := by
  obtain ⟨hid, hnid, matrix, leaves, hinfo, hidlt, hnidlt, hrows, hstore, hindex⟩ := ht.shape
  exact ⟨ht.fits, ht.tags, hid, hnid, matrix, leaves, hinfo, hidlt, hnidlt,
    hrows.imp fun _ _ hr => hr.reindex nbt,
    hstore.imp_right fun ⟨hne, hst, hblk⟩ => ⟨hne, hst.reindex nbt, hblk⟩, hindex⟩

theorem NodeAt.reindex {data sub : Nat} {h : HeapNode} (hn : NodeAt w data sub h entries)
    (nbt : List NbtEntry) : NodeAt { w with nbt } data sub h entries :=
  ⟨hn.tree, hn.ok, hn.subnodes, hn.nodup⟩

theorem Leaf.reindex {bid : Nat} {data : Bytes} (h : Leaf w bid data) (nbt : List NbtEntry) :
    Leaf { w with nbt } bid data := ⟨h.held, h.external⟩

theorem StreamingHeap.Follows.reindex {s : StreamingHeap} {h : HeapNode}
    (hf : StreamingHeap.Follows w s h) (nbt : List NbtEntry) :
    StreamingHeap.Follows { w with nbt } s h := by
  refine ⟨hf.sig, hf.open_, hf.packed, ?_⟩
  cases hf.stage with
  | first hindex hcurrent hleaves hbytes hfull hlast =>
    exact .first hindex hcurrent hleaves hbytes hfull hlast
  | later ps hindex hleaves hbytes hfull hlast hps =>
    exact .later ps hindex hleaves hbytes hfull hlast fun k p hp => (hps k p hp).reindex nbt

end

/-! ## While nodes are added -/

section

variable {es : List NbtEntry} {w w' : NdbWriter}

theorem TableAt.adds {std : StdSort} {data sub : Nat} {columns : List Nat} {rows : List RowCalls}
    (ht : TableAt std w data sub columns rows) (ha : Adds es w w') :
    TableAt std w' data sub columns rows := by
  obtain ⟨heap, entries, hnode, htable⟩ := ht.mono ha.grows
  exact ⟨heap, entries, hnode.reindex w'.nbt, htable.reindex w'.nbt⟩

namespace StreamingTable

variable {lay : Layout} {specs : List RowSpec} {ids : List Nat} {t : StreamingTable} {h : HeapNode}

/-- What others write meanwhile does not matter. -/
theorem Streams.mono (hst : Streams lay specs ids w t h) (hg : Grows w w') :
    Streams lay specs ids w' t h := by
  obtain ⟨matrix, hrows, full, last, hsplit, hblock, hbytes, hfull, hlast, hnone, hleaves⟩ :=
    hst.rows
  exact ⟨hg.sound, hst.agrees, hst.perBlock, hst.follows.mono hg, hst.ok, hst.subnodes, hst.count,
    hst.index, matrix, hrows.mono hg (fun _ _ hi => hi) (List.Subset.refl _), full, last, hsplit,
    hblock, hbytes, hfull, hlast, hnone, hleaves.imp fun _ _ hleaf => hleaf.mono hg⟩

theorem Streams.adds (hst : Streams lay specs ids w t h) (ha : Adds es w w') :
    Streams lay specs ids w' t h := by
  have hst' := hst.mono ha.grows
  obtain ⟨matrix, hrows, full, last, hsplit, hblock, hbytes, hfull, hlast, hnone, hleaves⟩ :=
    hst'.rows
  exact ⟨ha.sound, hst'.agrees, hst'.perBlock, hst'.follows.reindex w'.nbt, hst'.ok, hst'.subnodes,
    hst'.count, hst'.index, matrix, hrows.imp fun _ _ hr => hr.reindex w'.nbt, full, last, hsplit,
    hblock, hbytes, hfull, hlast, hnone, hleaves.imp fun _ _ hleaf => hleaf.reindex w'.nbt⟩

end StreamingTable

end

end Pst
end Imap2Pst
