import Imap2Pst.Pst.Session

/-!
# Pst.Lookup

The B-trees of a session on a stream that does not fail. The writer can build a tree over any
table of fewer than 2 ^ 32 entries, and the trees that `finish` builds are found through the
header of the file.

* `Indexes` — a tree in a file holds a table: its pages, the walk and the search.
* `btrees_sound` — the trees over any two tables, and those of the finished file.
-/

namespace Imap2Pst
namespace Pst

open CxxStd

/-! ## A tree over a table -/

/-- The tree at `root` holds the entries of `table`. -/
structure Indexes (f : File) (ptype : Byte) (size : Nat) (root : Bref) (table : List Bytes) :
    Prop where
  whole : WholeTree f ptype size root (readLeaves f 8 root.ib)
  perm : (readLeaves f 8 root.ib).Perm table
  ascending : (readLeaves f 8 root.ib).Pairwise fun a b => entryKey a < entryKey b
  search : ∀ k, searchTree f 8 root.ib k = table.find? fun e => entryKey e = k

theorem Ordered.strict {entries : List Bytes} (h : Ordered entries)
    (hnodup : (entries.map entryKey).Nodup) :
    entries.Pairwise fun a b => entryKey a < entryKey b :=
  (h.and (List.pairwise_map.1 hnodup)).imp fun hab => lt_of_le_of_ne hab.1 hab.2

theorem WholeTree.indexes {f : File} {ptype : Byte} {size : Nat} {root : Bref}
    {entries table : List Bytes} (h : WholeTree f ptype size root entries)
    (hperm : entries.Perm table) (hord : Ordered entries) (hnodup : (table.map entryKey).Nodup) :
    Indexes f ptype size root table := by
  have hnodup' := (hperm.map entryKey).nodup_iff.2 hnodup
  have hstrict := hord.strict hnodup'
  have hwalk := h.readLeaves
  refine ⟨hwalk.symm ▸ h, hwalk.symm ▸ hperm, hwalk.symm ▸ hstrict, fun k => ?_⟩
  rw [h.search hstrict, find?_key_perm hperm hnodup']

section

variable {α : Type} {key : α → Nat} {bytes : α → Bytes} {table : List α}

/-- The tree over a table that `std::sort` brought in order. -/
theorem buildBTree_indexes {std : StdSort} {ptype : Byte} {size : Nat} {w w' : NdbWriter}
    {root : Bref}
    (h : buildBTree ptype size ((std.sort (byKey key) table).map fun a => (key a, bytes a)) w =
      .ok root w') (hpos : 0 < entriesPerPage size) (hper : entriesPerPage size < 256)
    (hsmall : size < 256) (hlen : ∀ a, (bytes a).length = size)
    (hkey : ∀ a ∈ table, entryKey (bytes a) = key a) (hnodup : (table.map key).Nodup)
    (hs : Sound w) {f : File} (hf : Retains f w'.history) :
    Indexes f ptype size root (table.map bytes) := by
  have hord := ordered_sort std key hkey
  have hentries : ((std.sort (byKey key) table).map fun a => (key a, bytes a)).map Prod.snd =
      (std.sort (byKey key) table).map bytes := by
    rw [List.map_map]
    rfl
  have hbuilt := buildBTree_sound h hpos hper hsmall
    (fun e he => by obtain ⟨a, _, rfl⟩ := List.mem_map.1 he; exact hlen a)
    (fun (_ : True) e he => by
      obtain ⟨a, ha, rfl⟩ := List.mem_map.1 he
      exact hkey a (std.mem_sort.1 ha))
    (fun _ => hentries ▸ hord) hs
  have hwhole := hbuilt.whole trivial f hf
  rw [hentries] at hwhole
  exact hwhole.indexes ((std.perm _ _).map bytes) hord ((map_entryKey hkey).symm ▸ hnodup)

end

/-! ## The two trees -/

theorem Sound.bbt_nodup {w : NdbWriter} (hs : Sound w) : (w.bbt.map BbtEntry.bid).Nodup := by
  refine ((hs.blocks.map BbtEntry.bid).nodup_iff).1 (hs.bids_nodup.sublist ?_)
  induction w.history with
  | nil => exact List.Sublist.slnil
  | cons x history ih =>
    cases hkind : x.kind with
    | inl cb => simpa [Written.entry, hkind] using ih
    | inr ptype => simpa [Written.entry, hkind] using ih.cons _

/-- Over any table of distinct keys a sound tree is built; so are the two of a finished file. -/
theorem btrees_sound {std : StdSort} {ops : List NdbOp} {w : NdbWriter} {u : Unit}
    (h : opened std ops { fate := fun _ => true } = .ok u w) (hfew : w.bbt.length < 2 ^ 32) :
    (∀ table : List NbtEntry, (∀ e ∈ table, e.nid < 2 ^ 64) → (table.map NbtEntry.nid).Nodup →
      table.length < 2 ^ 32 →
      Returns (buildBTree kPTypeNBT kSizeNBTEntry
        ((std.sort (byKey NbtEntry.nid) table).map fun e => (e.nid, nbtBytes e))) w
        fun root w' => ∀ f, Retains f w'.history →
          Indexes f kPTypeNBT kSizeNBTEntry root (table.map nbtBytes)) ∧
    (∀ table : List BbtEntry, (∀ e ∈ table, e.bid < 2 ^ 64) → (table.map BbtEntry.bid).Nodup →
      table.length < 2 ^ 32 →
      Returns (buildBTree kPTypeBBT kSizeBBTEntry
        ((std.sort (byKey BbtEntry.bid) table).map fun e => (e.bid, bbtBytes e))) w
        fun root w' => ∀ f, Retains f w'.history →
          Indexes f kPTypeBBT kSizeBBTEntry root (table.map bbtBytes)) ∧
    ((∀ e ∈ w.nbt, e.nid < 2 ^ 64) → (w.nbt.map NbtEntry.nid).Nodup → w.nbt.length < 2 ^ 32 →
      Returns (finish std) w fun _ w' =>
        Indexes w'.file kPTypeNBT kSizeNBTEntry (readRoot w'.file).nbt (w.nbt.map nbtBytes) ∧
        Indexes w'.file kPTypeBBT kSizeBBTEntry (readRoot w'.file).bbt (w.bbt.map bbtBytes)) := by
  have hready := opened_ready h
  have hnbtPer : entriesPerPage kSizeNBTEntry = 15 := rfl
  have hbbtPer : entriesPerPage kSizeBBTEntry = 20 := rfl
  refine ⟨fun table hfit hnodup hcount => ?_, fun table hfit hnodup hcount => ?_,
    fun hfit hnodup hcount => ?_⟩
  · obtain ⟨root, w', hrun, -⟩ := buildBTree_returns (n := 0) kPTypeNBT
      ((std.sort (byKey NbtEntry.nid) table).map fun e => (e.nid, nbtBytes e))
      (hready.pages hfew (by rw [List.length_map, std.length_sort]; omega)) (by decide)
      nbtLeaves_length (by rw [List.length_map, std.length_sort, hnbtPer]; omega)
    exact ⟨root, w', hrun, fun f hf => buildBTree_indexes hrun (by decide) (by decide) (by decide)
      nbtBytes_length (fun e he => nbtBytes_key (hfit e he)) hnodup hready.sound hf⟩
  · obtain ⟨root, w', hrun, -⟩ := buildBTree_returns (n := 0) kPTypeBBT
      ((std.sort (byKey BbtEntry.bid) table).map fun e => (e.bid, bbtBytes e))
      (hready.pages hfew (by rw [List.length_map, std.length_sort]; omega)) (by decide)
      bbtLeaves_length (by rw [List.length_map, std.length_sort, hbbtPer]; omega)
    exact ⟨root, w', hrun, fun f hf => buildBTree_indexes hrun (by decide) (by decide) (by decide)
      bbtBytes_length (fun e he => bbtBytes_key (hfit e he)) hnodup hready.sound hf⟩
  · obtain ⟨_, w', hrun, -⟩ := finish_returns std (hready.pages hfew (by omega))
      hready.unfinished (by rw [hnbtPer]; omega) (by rw [hbbtPer]; omega)
    refine ⟨_, w', hrun, ?_⟩
    obtain ⟨w₂, nbt, bbt, fate', hfin, rfl⟩ := finish_spec hrun hready.sound hready.unfinished
    have hroot := hfin.readRoot
    have hf : Retains (closedFile w₂ nbt bbt) w₂.history := fun x hx =>
      read_closedFile nbt bbt hfin.sound hx
    have hnbt := hfin.nbtTree hfit _ hf
    have hbbt := hfin.bbtTree _ hf
    rw [hfin.nbtSorted] at hnbt
    rw [hfin.bbtSorted] at hbbt
    show Indexes (closedFile w₂ nbt bbt) _ _ (Pst.readRoot (closedFile w₂ nbt bbt)).nbt _ ∧
      Indexes (closedFile w₂ nbt bbt) _ _ (Pst.readRoot (closedFile w₂ nbt bbt)).bbt _
    rw [hroot]
    have hnbtKey : ∀ e ∈ w.nbt, entryKey (nbtBytes e) = e.nid := fun e he =>
      nbtBytes_key (hfit e he)
    have hbbtKey : ∀ e ∈ w.bbt, entryKey (bbtBytes e) = e.bid := fun e he =>
      bbtBytes_key (hready.sound.bbt_fits e he)
    exact ⟨hnbt.indexes ((std.perm _ _).map nbtBytes) (ordered_sort std _ hnbtKey)
        ((map_entryKey hnbtKey).symm ▸ hnodup),
      hbbt.indexes ((std.perm _ _).map bbtBytes) (ordered_sort std _ hbbtKey)
        ((map_entryKey hbbtKey).symm ▸ hready.sound.bbt_nodup)⟩

theorem two_nodes_btrees_sound : ∃ w, opened .insertion [.addNode 0x122 0 0 0x21,
      .addNode 0x21 0 0 0] { fate := fun _ => true } = .ok () w ∧
    Returns (finish .insertion) w fun _ w' =>
      Indexes w'.file kPTypeNBT kSizeNBTEntry (readRoot w'.file).nbt
        ([⟨0x122, 0, 0, 0x21⟩, ⟨0x21, 0, 0, 0⟩].map nbtBytes) ∧
      Indexes w'.file kPTypeBBT kSizeBBTEntry (readRoot w'.file).bbt [] := by
  obtain ⟨_, w, hrun, hstart, _⟩ := openWriter_returns
  have hnbt : w.nbt ++ [⟨0x122, 0, 0, 0x21⟩] ++ [⟨0x21, 0, 0, 0⟩] =
      [⟨0x122, 0, 0, 0x21⟩, ⟨0x21, 0, 0, 0⟩] := by
    rw [hstart.nbt]
    rfl
  have h : opened .insertion [.addNode 0x122 0 0 0x21, .addNode 0x21 0 0 0]
      { fate := fun _ => true } = .ok ()
        { w with nbt := w.nbt ++ [⟨0x122, 0, 0, 0x21⟩] ++ [⟨0x21, 0, 0, 0⟩] } :=
    bind_eq_ok.2 ⟨(), w, hrun, rfl⟩
  have hfew : w.bbt.length < 2 ^ 32 := by
    rw [hstart.bbt]
    decide
  refine ⟨_, h, ?_⟩
  have hclose := (btrees_sound h hfew).2.2
  dsimp only at hclose
  rw [hnbt, hstart.bbt] at hclose
  rw [hnbt, hstart.bbt]
  exact hclose (by decide) (by decide) (by decide)

end Pst
end Imap2Pst
