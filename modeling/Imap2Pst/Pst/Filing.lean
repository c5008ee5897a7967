import Imap2Pst.Pst.Archive
import Imap2Pst.Pst.Adds
import Imap2Pst.Pst.Failures

/-!
# Pst.Filing

The writer holds an archive: the calls of `PstWriter` do to the folders, the contents tables and
the nodes what `Archive.after` says.

* `Archive.folder`   — a folder as the writer keeps it.
* `Files`            — the writer has everything that is in the archive.
* `Files.makeFolder` — a folder is made.
-/

namespace Imap2Pst
namespace Pst

open CxxStd

/-! ## Folders -/

namespace FolderTable

theorem updateFirst_eq_map {id : Nat} {g : Folder → Folder} {folders : List Folder}
    (hnodup : (folders.map Folder.nid).Nodup) :
    updateFirst id g folders = folders.map fun f => if f.nid = id then g f else f := by
  induction folders with
  | nil => rfl
  | cons f rest ih =>
    obtain ⟨hnew, hnodup⟩ := List.nodup_cons.1 hnodup
    rw [updateFirst, List.map_cons]
    split
    · rename_i hid
      -- no other folder has the NID
      have hrest : rest.map (fun f => if f.nid = id then g f else f) = rest := by
        conv_rhs => rw [← List.map_id rest]
        refine List.map_congr_left fun f' hf' => if_neg fun heq => hnew ?_
        rw [hid, ← heq]
        exact List.mem_map_of_mem hf'
      rw [hrest]
    · rw [ih hnodup]

end FolderTable

namespace Archive

variable (a : Archive)

/-- A folder as the writer keeps it. -/
def folder (s : Shelf) : Folder where
  nid := s.nid
  parent := s.parent
  name := s.name
  children := (a.children s.nid).map Shelf.nid
  messageCount := (a.inside s.nid).length
  unread := a.unread s.nid % 2 ^ 32

/-- The rows of the contents table of a folder. -/
def rows (nid : Nat) : List RowCalls := (a.inside nid).map fun l => contentsRow l.nid l.message

variable {a}

theorem map_nid_folder (l : List Shelf) : (l.map a.folder).map Folder.nid = l.map Shelf.nid := by
  rw [List.map_map]
  rfl

theorem children_addShelf (h : a.Ok) (parent : Nat) (name : Bytes) (nid : Nat) :
    (a.addShelf parent name).children nid = a.children nid ++
      if parent = nid then [⟨folderNid a.shelves.length, parent, name⟩] else [] := by
  have hpos := h.nonempty
  rw [children, addShelf, List.drop_append_of_le_length hpos, List.filter_append,
    List.filter_singleton, Bool.cond_decide]
  rfl

theorem inside_addLetter (a : Archive) (folder : Nat) (m : Message) (nid : Nat) :
    (a.addLetter folder m).inside nid = a.inside nid ++
      if folder = nid then [⟨messageNid a.numbered, folder, m⟩] else [] := by
  rw [inside, addLetter, List.filter_append, List.filter_singleton, Bool.cond_decide]
  rfl

theorem Ok.parents (h : a.Ok) {s : Shelf} (hs : s ∈ a.shelves) : s.parent ∈ a.nids := by
  obtain ⟨i, hi⟩ := List.mem_iff_getElem?.1 hs
  obtain ⟨hlt, -⟩ := List.getElem?_eq_some_iff.1 hi
  cases i with
  | zero =>
    obtain ⟨name, hroot⟩ := h.root
    rw [List.head?_eq_getElem?, hi] at hroot
    cases hroot
    exact List.mem_map_of_mem hs
  | succ i =>
    obtain ⟨j, hj, hparent⟩ := h.below i s hi
    rw [hparent, h.nids]
    exact List.mem_map_of_mem (List.mem_range.2 (by omega))

theorem inside_eq_nil (h : a.Ok) {nid : Nat} (hnid : nid ∉ a.nids) : a.inside nid = [] := by
  refine List.filter_eq_nil_iff.2 fun l hl heq => hnid ?_
  rw [← of_decide_eq_true heq]
  exact h.placed l hl

theorem children_eq_nil (h : a.Ok) {nid : Nat} (hnid : nid ∉ a.nids) : a.children nid = [] := by
  refine List.filter_eq_nil_iff.2 fun s hs heq => hnid ?_
  rw [← of_decide_eq_true heq]
  exact h.parents (List.mem_of_mem_drop hs)

theorem folder_addShelf (h : a.Ok) {parent : Nat} {name : Bytes} (s : Shelf) :
    (a.addShelf parent name).folder s = if s.nid = parent
      then (a.folder s).adopt (folderNid a.shelves.length) else a.folder s := by
  have hchildren := children_addShelf h parent name s.nid
  unfold folder
  rw [hchildren]
  split
  · rename_i heq
    rw [if_pos heq.symm, List.map_append]
    rfl
  · rename_i hne
    rw [if_neg fun heq => hne heq.symm, List.append_nil]
    rfl

/-- The folders of the writer, when one is made. -/
theorem folders_addShelf (h : a.Ok) {parent : Nat} {name : Bytes}
    (hfew : (a.addShelf parent name).Few) (hparent : parent ∈ a.nids) :
    FolderTable.updateFirst parent (Folder.adopt (folderNid a.shelves.length))
      (a.shelves.map a.folder ++ [{ nid := folderNid a.shelves.length, parent, name }]) =
        (a.addShelf parent name).shelves.map (a.addShelf parent name).folder := by
  have hok := h.addShelf hparent name
  have hfresh := h.fresh hfew
  have hnids : (a.shelves.map a.folder ++ [({ nid := folderNid a.shelves.length, parent, name } :
      Folder)]).map Folder.nid = (a.addShelf parent name).nids := by
    rw [List.map_append, map_nid_folder, nids, addShelf, List.map_append]
    rfl
  have hne : folderNid a.shelves.length ≠ parent := fun heq => hfresh (heq ▸ hparent)
  rw [FolderTable.updateFirst_eq_map (hnids ▸ hok.nodup hfew), List.map_append, List.map_map]
  show _ = (a.shelves ++ [_]).map _
  rw [List.map_append]
  congr 1
  · refine List.map_congr_left fun s _ => ?_
    rw [folder_addShelf h]
    rfl
  · rw [List.map_singleton, List.map_singleton, folder_addShelf h, if_neg hne, if_neg hne]
    unfold folder unread
    rw [children_eq_nil h hfresh, inside_eq_nil h hfresh]
    rfl

theorem folder_addLetter {folder : Nat} {m : Message} (s : Shelf) :
    (a.addLetter folder m).folder s =
      if s.nid = folder then (a.folder s).count m.seen else a.folder s := by
  have hinside := inside_addLetter a folder m s.nid
  rw [Archive.folder, Archive.unread, hinside]
  split
  · rename_i heq
    rw [if_pos heq.symm, List.length_append, List.countP_append]
    have hunread : (a.unread s.nid + List.countP (fun l : Letter => !l.message.seen)
        [⟨messageNid a.numbered, folder, m⟩]) % 2 ^ 32 =
          if m.seen then a.unread s.nid % 2 ^ 32 else (a.unread s.nid % 2 ^ 32 + 1) % 2 ^ 32 := by
      cases hseen : m.seen with
      | true => simp [hseen]
      | false => simp [hseen, Nat.add_mod]
    exact congrArg (fun u => ({ Archive.folder a s with
      messageCount := (a.inside s.nid).length + 1, unread := u } : Folder)) hunread
  · rename_i hne
    rw [if_neg fun heq => hne heq.symm, List.append_nil]
    rfl

/-- And when a message has come. -/
theorem folders_addLetter (h : a.Ok) (hfew : a.Few) {folder : Nat} {m : Message} :
    FolderTable.updateFirst folder (Folder.count m.seen) (a.shelves.map a.folder) =
      (a.addLetter folder m).shelves.map (a.addLetter folder m).folder := by
  have hnodup : ((a.shelves.map a.folder).map Folder.nid).Nodup := by
    rw [map_nid_folder]
    exact h.nodup hfew
  rw [FolderTable.updateFirst_eq_map hnodup, List.map_map]
  refine List.map_congr_left fun s _ => ?_
  rw [folder_addLetter]
  rfl

end Archive

/-! ## The writer -/

/-- The node of a message that was stored. -/
structure Delivered (key : RecordKey) (w : NdbWriter) (l : Letter) (e : NbtEntry) : Prop where
  nid : e.nid = l.nid
  parent : e.parent = l.folder
  fits : e.Fits
  reads : ∀ store, Covers store w → ∃ n, readNode store e.data e.sub = some n ∧
    MessageReads store key l.nid false n l.message

theorem Delivered.adds {key : RecordKey} {w w' : NdbWriter} {l : Letter} {e : NbtEntry}
    {es : List NbtEntry} (h : Delivered key w l e) (ha : Adds es w w') : Delivered key w' l e :=
  ⟨h.nid, h.parent, h.fits, fun store hc => h.reads store (hc.of_adds ha)⟩

/-- A contents table has handed over the rows of these messages. -/
def Shelved (rows : List RowCalls) (w : NdbWriter) (t : StreamingTable) : Prop :=
  ∃ h, StreamingTable.Streams (layout (declared contentsColumns)) (rows.map RowCalls.spec)
    ((rows.map RowCalls.spec).map RowSpec.rowId) w t h

/-- The folders a store advertises. -/
def PstWriter.advertised (w : PstWriter) : List Nat :=
  [w.rootFolder, w.ipmSubtree, w.deletedItems, w.sentItems, w.outbox, w.searchRoot, w.views,
    w.commonViews]

/-- The writer has everything that is in the archive. -/
structure Files (a : Archive) (w : PstWriter) : Prop where
  ok : a.Ok
  stands : Stands w.toStoreWriter
  folders : w.folders.folders = a.shelves.map a.folder
  nextFolder : w.folders.nextFolderIndex + 1 = kFirstUserNidIndex + a.shelves.length
  nextMessage : w.nextMessageIndex = kFirstUserNidIndex + a.numbered
  shelved : w.contents.length = a.shelves.length
  contents : ∀ (i : Nat) (s : Shelf) (t : StreamingTable), a.shelves[i]? = some s →
    w.contents[i]? = some t → Shelved (a.rows s.nid) w.ndb t
  nodes : List.Forall₂ (Delivered w.storeGuid w.ndb) a.letters w.ndb.nbt
  unfinished : w.finished = false
  writable : w.ndb.finished = false

section

variable {a : Archive} {w w' : PstWriter}

/-- Blocks that nothing points to do not matter. -/
theorem Files.grows {s : StoreWriter} (h : Files a w) (hs : Stands s) (hg : Grows w.ndb s.ndb) :
    Files a { w with toStoreWriter := s } := by
  refine ⟨h.ok, hs, h.folders, h.nextFolder, h.nextMessage, h.shelved, fun i s t hi ht => ?_, ?_,
    h.unfinished, hg.finished.trans h.writable⟩
  · obtain ⟨heap, hst⟩ := h.contents i s t hi ht
    exact ⟨heap, hst.mono hg⟩
  · show List.Forall₂ (Delivered w.storeGuid s.ndb) a.letters s.ndb.nbt
    rw [hg.nbt]
    exact h.nodes.imp fun _ _ hd => hd.adds hg.adds

theorem Files.makeFolder (h : Files a w) {parent : Nat} (name : Bytes) (hparent : parent ∈ a.nids)
    (hfew : (a.addShelf parent name).Few) : ∃ w',
      w.makeFolder parent name 0 = (folderNid a.shelves.length, w') ∧
      Files (a.addShelf parent name) w' ∧ w'.storeGuid = w.storeGuid ∧
      w'.advertised = w.advertised := by
  have hpos := h.ok.nonempty
  have hnid : folderNid a.shelves.length =
      makeNid kNidTypeNormalFolder w.folders.nextFolderIndex := by
    obtain ⟨k, hk⟩ := Nat.exists_eq_add_of_lt hpos
    have hnext := h.nextFolder
    rw [hk, folderNid]
    congr 1
    omega
  have hzero : parent ≠ 0 := by
    rw [h.ok.nids] at hparent
    obtain ⟨i, -, rfl⟩ := List.mem_map.1 hparent
    exact folderNid_ne_zero i
  have hlen : (a.addShelf parent name).shelves.length = a.shelves.length + 1 := by
    rw [Archive.addShelf, List.length_append, List.length_singleton]
  refine ⟨(w.makeFolder parent name 0).2, ?_, ⟨h.ok.addShelf hparent name, h.stands, ?_, ?_,
    h.nextMessage, ?_, fun i s t hi ht => ?_, h.nodes, h.unfinished, h.writable⟩, rfl, rfl⟩
  · rw [hnid]
    rfl
  · show (w.folders.makeFolder parent name 0).2.folders = _
    rw [← Archive.folders_addShelf h.ok hfew hparent, ← h.folders, hnid]
    simp only [FolderTable.makeFolder, ne_eq, not_true_eq_false, if_false, if_pos hzero,
      FolderTable.update]
  · have hnext : (w.folders.makeFolder parent name 0).2.nextFolderIndex =
        (w.folders.nextFolderIndex + 1) % 2 ^ 32 := by
      simp only [FolderTable.makeFolder, ne_eq, not_true_eq_false, if_false, if_pos hzero,
        FolderTable.update]
    have hshelves := hfew.shelves
    have hfirst : kFirstUserNidIndex = 1024 := rfl
    have hold := h.nextFolder
    show (w.folders.makeFolder parent name 0).2.nextFolderIndex + 1 = _
    rw [hlen] at hshelves ⊢
    rw [hnext]
    omega
  · show (w.contents ++ [_]).length = _
    rw [List.length_append, hlen, h.shelved, List.length_singleton]
  · replace ht : (w.contents ++ [.create contentsColumns])[i]? = some t := ht
    rcases Nat.lt_or_ge i a.shelves.length with hlt | hge
    · have hi' : a.shelves[i]? = some s := (List.getElem?_append_left hlt).symm.trans hi
      rw [List.getElem?_append_left (h.shelved ▸ hlt)] at ht
      exact h.contents i s t hi' ht
    · have hi' : (a.shelves ++ [⟨folderNid a.shelves.length, parent, name⟩])[i]? = some s := hi
      rw [List.getElem?_append_right hge, List.getElem?_singleton] at hi'
      rw [List.getElem?_append_right (h.shelved ▸ hge), List.getElem?_singleton] at ht
      split at hi'
      · rename_i hi₀
        rw [h.shelved, if_pos hi₀] at ht
        cases hi'
        cases ht
        have hrows : (a.addShelf parent name).rows (folderNid a.shelves.length) = [] :=
          congrArg (List.map _) (Archive.inside_eq_nil h.ok (h.ok.fresh hfew))
        rw [hrows]
        exact ⟨_, StreamingTable.streams_new h.stands.sound⟩
      · cases hi'

end

end Pst
end Imap2Pst
