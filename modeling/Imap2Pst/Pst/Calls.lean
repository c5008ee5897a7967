import Imap2Pst.Pst.Filing

/-!
# Pst.Calls

What the calls of `PstWriter` do to a writer that holds an archive.

* `addMessageNode_spec`, `addMessageNode_throws` — the node of a message.
* `Filed` — the writer holds an archive; `Filed.addMessage`, `Filed.addMessage_throws`,
  `Filed.createFolder` — one call, whether it returns or throws.
* `WriterStaysBad` — a stream that has failed stays so, whatever is called.
-/

namespace Imap2Pst
namespace Pst

open CxxStd

namespace PstWriter

/-! ## Parts of the writer -/

section

variable {α : Type} {w w' : PstWriter}

theorem onStore_eq_ok {x : EStateM PstError StoreWriter α} {a : α} :
    onStore x w = .ok a w' ↔
      ∃ s, x w.toStoreWriter = .ok a s ∧ w' = { w with toStoreWriter := s } := onto_eq_ok

theorem onStore_eq_error {x : EStateM PstError StoreWriter α} {e : PstError} :
    onStore x w = .error e w' ↔
      ∃ s, x w.toStoreWriter = .error e s ∧ w' = { w with toStoreWriter := s } := onto_eq_error

theorem onDisk_eq_ok {x : Ndb α} {a : α} :
    onDisk x w = .ok a w' ↔ ∃ v, x w.ndb = .ok a v ∧ w' = { w with ndb := v } := by
  rw [onDisk, onStore_eq_ok]
  constructor
  · rintro ⟨s, hx, rfl⟩
    obtain ⟨v, hv, rfl⟩ := onFile_eq_ok.1 hx
    exact ⟨v, hv, rfl⟩
  · rintro ⟨v, hv, rfl⟩
    exact ⟨_, onFile_eq_ok.2 ⟨v, hv, rfl⟩, rfl⟩

theorem onContents_eq_ok {i : Nat} {x : Streaming StreamingTable α} {a : α} :
    onContents i x w = .ok a w' ↔ ∃ v t, x (w.ndb, w.contents.getD i (.create [])) = .ok a (v, t) ∧
      w' = { w with ndb := v, contents := w.contents.set i t } := by
  rw [onContents, onto_eq_ok]
  constructor
  · rintro ⟨⟨v, t⟩, hx, rfl⟩
    exact ⟨v, t, hx, rfl⟩
  · rintro ⟨v, t, hx, rfl⟩
    exact ⟨(v, t), hx, rfl⟩

end

/-! ## The node of a message -/

section

variable {std : StdSort}

theorem writeNodeFromHeap_spec {nid parent : Nat} {h : HeapNode} {subs : SubnodeAllocator}
    {w w' : NdbWriter} {u : Unit}
    (hrun : writeNodeFromHeap std nid parent h.serialize subs w = .ok u w') (hs : Sound w)
    (hok : h.Ok) (hroot : h.userRoot < 2 ^ 32) (hsok : subs.Ok) : ∃ n : NodeData,
      Adds [⟨nid, n.data, n.sub, parent⟩] w w' ∧ n.Fits ∧
      NodeAt w' n.data n.sub h subs.entries := by
  unfold writeNodeFromHeap at hrun
  obtain ⟨n, w₂, hheap, hadd⟩ := bind_eq_ok.1 hrun
  obtain ⟨w₁, hdata, hsub⟩ := writeHeap_eq_ok hheap
  obtain ⟨hg, hnode, hdlt, hslt⟩ := nodeAt_of_writes hdata hsub hs hok hroot hsok
  have hadds := addNode_adds hadd hg.sound
  cases modify_eq_ok.1 hadd
  exact ⟨n, hg.adds.trans hadds, ⟨hdlt, hslt⟩, hnode.reindex _⟩

variable {w w' : PstWriter} {folder nid : Nat} {m : Message}

/-- The node reads as the message. -/
theorem addMessageNode_spec {u : Unit} (h : addMessageNode std folder nid m w = .ok u w')
    (hs : Stands w.toStoreWriter) (hnid : nid < 2 ^ 32) (hfolder : folder < 2 ^ 32) : ∃ s e,
      w' = { w with toStoreWriter := s } ∧ Stands s ∧ Adds [e] w.ndb s.ndb ∧
      Delivered w.storeGuid s.ndb ⟨nid, folder, m⟩ e := by
  unfold addMessageNode at h
  obtain ⟨_, _, hget, h⟩ := bind_eq_ok.1 h
  obtain ⟨rfl, rfl⟩ := get_eq_ok.1 hget
  obtain ⟨⟨heap, subs⟩, w₁, hbuild, hwrite⟩ := bind_eq_ok.1 h
  obtain ⟨s, hlocal, rfl⟩ := onStore_eq_ok.1 hbuild
  obtain ⟨v, hnode, rfl⟩ := onDisk_eq_ok.1 hwrite
  have hmessage := withLocal_eq_ok.1 hlocal
  obtain ⟨hs₁, hg⟩ := buildMessage_stands hmessage hs
  obtain ⟨hn, rfl, hok, hroot, hsok, hreads⟩ := buildMessage_reads m hmessage hs
  obtain ⟨n, hadds, hfits, hat⟩ := writeNodeFromHeap_spec hnode hs₁.sound hok hroot hsok
  refine ⟨{ s with ndb := v }, ⟨nid, n.data, n.sub, folder⟩, rfl, ⟨hadds.sound, hs₁.names⟩,
    hg.adds.trans hadds, rfl, rfl, ⟨hnid, hfits.1, hfits.2, hfolder⟩, fun store hc => ?_⟩
  obtain ⟨view, hread, hview⟩ := hat.reads hc
  exact ⟨view, hread, hreads store view (hc.of_adds hadds) hview⟩

/-- Where it throws, no node has been added. -/
theorem addMessageNode_throws {e : PstError} (h : addMessageNode std folder nid m w = .error e w') :
    ∃ s, w' = { w with toStoreWriter := s } ∧ StoreFalters w.toStoreWriter s := by
  unfold addMessageNode at h
  rcases bind_eq_error.1 h with h | ⟨_, _, hget, h⟩
  · cases h
  obtain ⟨rfl, rfl⟩ := get_eq_ok.1 hget
  have hdrives : Drives StoreEndures StoreFalters
      (withLocal ({} : SubnodeAllocator) (buildMessage std w.storeGuid nid false m)) :=
    drives_withLocal (buildMessage_falters std w.storeGuid m nid false)
  rcases bind_eq_error.1 h with h | ⟨⟨heap, subs⟩, w₁, hbuild, h⟩
  · obtain ⟨s, hs, rfl⟩ := onStore_eq_error.1 h
    exact ⟨s, rfl, (hdrives _).throws _ _ hs⟩
  · obtain ⟨s, hs, rfl⟩ := onStore_eq_ok.1 hbuild
    have hreturns := (hdrives _).returns _ _ hs
    obtain ⟨s', hs', rfl⟩ := onStore_eq_error.1 h
    obtain ⟨v, hv, rfl⟩ := onto_eq_error.1 hs'
    unfold writeNodeFromHeap at hv
    rcases bind_eq_error.1 hv with hv | ⟨n, v₁, -, hv⟩
    · have hfalters := (writeHeap_drives emitBlock_falters std heap subs.entries _).throws _ _ hv
      exact ⟨_, rfl, Escapes.after hreturns (StoreFalters.of_file s v hfalters)⟩
    · cases hv

end

end PstWriter

/-! ## Contents tables -/

/-- The tags of a row, with the widths of their values. -/
def contentsShape : List (Nat × Nat) :=
  [(PR_SUBJECT, 0), (PR_SENDER_NAME, 0), (PR_DISPLAY_TO, 0), (PR_MESSAGE_CLASS, 0),
    (PR_MESSAGE_DELIVERY_TIME, 8), (PR_MESSAGE_FLAGS, 4), (PR_MESSAGE_SIZE, 4), (PR_HASATTACH, 1)]

theorem shape_contentsRow (nid : Nat) (m : Message) :
    (contentsRow nid m).shape = contentsShape := by
  simp only [contentsRow, RowCalls.shape, List.map_cons, List.map_nil, CellValue.width,
    contentsShape]

theorem tabular_contents {rows : List RowCalls}
    (h : ∀ r ∈ rows, ∃ nid m, nid < 2 ^ 32 ∧ r = contentsRow nid m) :
    Tabular contentsColumns rows := by
  refine Tabular.of_shape contentsShape (by decide) (by decide) (fun r hr => ?_)
    (fun r hr => ?_) (by decide) (by decide) (by decide)
  · obtain ⟨nid, m, hnid, rfl⟩ := h r hr
    exact hnid
  · obtain ⟨nid, m, -, rfl⟩ := h r hr
    exact shape_contentsRow nid m

namespace Archive

variable {a : Archive}

theorem Ok.letter_nid (h : a.Ok) {l : Letter} (hl : l ∈ a.letters) : ∃ j < a.numbered,
    l.nid = messageNid j := by
  obtain ⟨j, hj, heq⟩ := List.mem_map.1 (h.numbers.subset (List.mem_map_of_mem hl))
  exact ⟨j, List.mem_range.1 hj, heq.symm⟩

theorem Ok.tabular (h : a.Ok) (nid : Nat) : Tabular contentsColumns (a.rows nid) := by
  refine tabular_contents fun r hr => ?_
  obtain ⟨l, hl, rfl⟩ := List.mem_map.1 hr
  obtain ⟨j, -, hj⟩ := h.letter_nid (List.mem_of_mem_filter hl)
  exact ⟨l.nid, l.message, hj ▸ makeNid_lt _ _, rfl⟩

theorem rows_addLetter {folder : Nat} {m : Message} (nid : Nat) : (a.addLetter folder m).rows nid =
    if nid = folder then a.rows nid ++ [contentsRow (messageNid a.numbered) m] else a.rows nid := by
  have hinside := inside_addLetter a folder m nid
  rw [rows, hinside]
  split
  · rename_i heq
    rw [if_pos heq.symm, List.map_append]
    rfl
  · rename_i hne
    rw [if_neg fun heq => hne heq.symm, List.append_nil]
    rfl

end Archive

/-- A row is handed over. -/
theorem Shelved.writeRow {rows : List RowCalls} {w w' : NdbWriter} {t t' : StreamingTable}
    {u : Unit} {nid : Nat} {m : Message} (h : Shelved rows w t) (hnid : nid < 2 ^ 32)
    (hrun : StreamingTable.writeRow (contentsRow nid m) (w, t) = .ok u (w', t')) :
    Grows w w' ∧ Shelved (rows ++ [contentsRow nid m]) w' t' := by
  have ht : Tabular contentsColumns [contentsRow nid m] := by
    refine tabular_contents fun r hr => ?_
    exact ⟨nid, m, hnid, List.mem_singleton.1 hr⟩
  obtain ⟨hf, htags⟩ := declared_fits ht.few
  obtain ⟨-, -, -, -, hnodup⟩ := declared_eq contentsColumns
  obtain ⟨heap, hst⟩ := h
  obtain ⟨hg, heap', hst'⟩ := StreamingTable.writeRow_spec hf (htags ▸ hnodup)
    (ht.matching _ (List.mem_singleton_self _)) hrun hst
  refine ⟨hg, heap', ?_⟩
  rw [List.map_append, List.map_singleton]
  exact hst'

/-! ## Calls -/

/-- A writer between two calls. -/
structure Filed (key : RecordKey) (a : Archive) (w : PstWriter) : Prop extends Files a w where
  key : w.storeGuid = key
  advertised : w.advertised = (List.range 8).map folderNid

section

open PstWriter

variable {std : StdSort} {key : RecordKey} {a : Archive} {w w' : PstWriter} {folder : Nat}
  {m : Message}

theorem Files.folder?_isSome_iff (h : Files a w) {nid : Nat} :
    (w.folders.folder? nid).isSome ↔ nid ∈ a.nids := by
  rw [FolderTable.folder?_isSome_iff, h.folders, Archive.map_nid_folder]
  rfl

theorem findIdx?_folders (h : Files a w) {i : Nat}
    (hi : w.folders.folders.findIdx? (fun f => f.nid = folder) = some i) :
    ∃ s, a.shelves[i]? = some s ∧ s.nid = folder := by
  rw [h.folders] at hi
  obtain ⟨hlt, hnid, -⟩ := List.findIdx?_eq_some_iff_getElem.1 hi
  rw [List.length_map] at hlt
  refine ⟨_, List.getElem?_eq_getElem hlt, ?_⟩
  simpa [Archive.folder] using hnid

/-- A message for a folder that is there. -/
theorem addMessage_known {i : Nat}
    (hi : w.folders.folders.findIdx? (fun f => f.nid = folder) = some i) :
    addMessage std folder m w = (do
      addMessageNode std folder (makeNid kNidTypeNormalMessage w.nextMessageIndex) m
      onContents i (StreamingTable.writeRow
        (contentsRow (makeNid kNidTypeNormalMessage w.nextMessageIndex) m))
      modify fun w => { w with folders := w.folders.countMessage folder m.seen } : Writing Unit)
        { w with nextMessageIndex := (w.nextMessageIndex + 1) % 2 ^ 32 } := by
  have hget (f : PstWriter → Writing Unit) : (get >>= f) w = f w w := rfl
  rw [addMessage, hget]
  simp only [hi]
  rfl

theorem addMessage_unknown
    (hi : w.folders.folders.findIdx? (fun f => f.nid = folder) = none) :
    addMessage std folder m w = .error ⟨"unknown folder id " ++ toString folder⟩ w := by
  have hget (f : PstWriter → Writing Unit) : (get >>= f) w = f w w := rfl
  rw [addMessage, hget]
  simp only [hi]
  rfl

/-- The message has a NID, and nothing else has happened. -/
theorem Filed.skip (h : Filed key a w) (hfew : a.skip.Few) :
    Filed key a.skip { w with nextMessageIndex := (w.nextMessageIndex + 1) % 2 ^ 32 } := by
  refine ⟨⟨h.ok.skip, h.stands, h.folders, h.nextFolder, ?_, h.shelved, h.contents, h.nodes,
    h.unfinished, h.writable⟩, h.key, h.advertised⟩
  have hnext := h.nextMessage
  have hnumbered : a.numbered + 1 ≤ 2 ^ 27 - kFirstUserNidIndex := hfew.letters
  have hfirst : kFirstUserNidIndex = 1024 := rfl
  show (w.nextMessageIndex + 1) % 2 ^ 32 = kFirstUserNidIndex + (a.numbered + 1)
  omega

theorem folderNid_lt (i : Nat) : folderNid i < 2 ^ 32 := by
  cases i with
  | zero => decide
  | succ i => exact makeNid_lt _ _

theorem Archive.Ok.nid_lt (h : a.Ok) {nid : Nat} (hnid : nid ∈ a.nids) : nid < 2 ^ 32 := by
  rw [h.nids] at hnid
  obtain ⟨i, -, rfl⟩ := List.mem_map.1 hnid
  exact folderNid_lt i

theorem Files.messageNid_eq (h : Files a w) :
    makeNid kNidTypeNormalMessage w.nextMessageIndex = messageNid a.numbered := by
  rw [h.nextMessage]
  rfl

/-- A message is stored: one more node, one more row, and the counts. -/
theorem Filed.addMessage {u : Unit} (h : Filed key a w)
    (hrun : addMessage std folder m w = .ok u w') (hfew : (a.addLetter folder m).Few) :
    Filed key (a.addLetter folder m) w' := by
  cases hi : w.folders.folders.findIdx? fun f => f.nid = folder with
  | none =>
    rw [addMessage_unknown hi] at hrun
    cases hrun
  | some i =>
    rw [addMessage_known hi, h.messageNid_eq] at hrun
    obtain ⟨s, hs, rfl⟩ := findIdx?_folders h.toFiles hi
    have hmem : s.nid ∈ a.nids := List.mem_map_of_mem (List.mem_of_getElem? hs)
    have hnid : messageNid a.numbered < 2 ^ 32 := makeNid_lt _ _
    obtain ⟨_, w₁, hnode, hrun⟩ := bind_eq_ok.1 hrun
    obtain ⟨_, w₂, hrow, hcount⟩ := bind_eq_ok.1 hrun
    cases modify_eq_ok.1 hcount
    obtain ⟨st, e, rfl, hst, hadds, hdelivered⟩ := addMessageNode_spec hnode h.stands hnid
      (h.ok.nid_lt hmem)
    obtain ⟨v, t', hwrite, rfl⟩ := onContents_eq_ok.1 hrow
    obtain ⟨hlt, -⟩ := List.getElem?_eq_some_iff.1 hs
    have ht : w.contents[i]? = some (w.contents.getD i (.create [])) := by
      rw [List.getD_eq_getElem?_getD, List.getElem?_eq_getElem (h.shelved ▸ hlt), Option.getD_some]
    have hshelved : Shelved (a.rows s.nid) st.ndb (w.contents.getD i (.create [])) := by
      obtain ⟨heap, hstream⟩ := h.contents i s _ hs ht
      exact ⟨heap, hstream.adds hadds⟩
    obtain ⟨hg, hshelved'⟩ := hshelved.writeRow hnid hwrite
    have hadds' : Adds [e] w.ndb v := by
      have hboth := hadds.trans hg.adds
      rwa [List.append_nil] at hboth
    have hskip := h.skip ⟨hfew.shelves, hfew.letters⟩
    have hfew₀ : a.Few := ⟨hfew.shelves, (Nat.le_succ _).trans hfew.letters⟩
    refine ⟨⟨h.ok.addLetter hmem m, ⟨hg.sound, hst.names⟩, ?_, h.nextFolder, hskip.nextMessage, ?_,
      fun j s' t hj ht' => ?_, ?_, h.unfinished, hadds'.finished.trans h.writable⟩, h.key,
      h.advertised⟩
    · show FolderTable.updateFirst s.nid (Folder.count m.seen) w.folders.folders = _
      rw [h.folders]
      exact Archive.folders_addLetter h.ok hfew₀
    · exact (List.length_set ..).trans h.shelved
    · replace hj : a.shelves[j]? = some s' := hj
      replace ht' : (w.contents.set i t')[j]? = some t := ht'
      rw [Archive.rows_addLetter]
      by_cases hij : i = j
      · subst hij
        rw [List.getElem?_set_self (h.shelved ▸ hlt)] at ht'
        cases hs.symm.trans hj
        cases ht'
        rw [if_pos rfl]
        exact hshelved'
      · rw [List.getElem?_set_ne hij] at ht'
        obtain ⟨heap, hstream⟩ := h.contents j s' t hj ht'
        rw [if_neg fun heq => hij (h.ok.getElem?_inj hfew₀ hs hj heq.symm)]
        exact ⟨heap, hstream.adds hadds'⟩
    · have hold := h.nodes.imp fun _ _ hd => hd.adds hadds'
      have hnew : List.Forall₂ (Delivered w.storeGuid v) (a.addLetter s.nid m).letters
          (w.ndb.nbt ++ [e]) := List.rel_append hold (.cons (hdelivered.adds hg.adds) .nil)
      rw [← hadds'.nbt] at hnew
      exact hnew

/-- A message is not stored. What has been written of it is in no node. -/
theorem Filed.addMessage_throws {e : PstError} (h : Filed key a w)
    (hrun : PstWriter.addMessage std folder m w = .error e w')
    (hfew : (a.after (.addMessage folder m) false).Few) (hnodes : w'.ndb.nbt = w.ndb.nbt)
    (hgood : w'.ndb.good = true) : Filed key (a.after (.addMessage folder m) false) w' := by
  cases hi : w.folders.folders.findIdx? fun f => f.nid = folder with
  | none =>
    have hunknown : folder ∉ a.nids := by
      rw [h.folders] at hi
      intro hmem
      obtain ⟨s, hs, rfl⟩ := List.mem_map.1 hmem
      exact absurd (List.findIdx?_eq_none_iff.1 hi (a.folder s) (List.mem_map_of_mem hs))
        (by simp [Archive.folder])
    rw [addMessage_unknown hi] at hrun
    cases hrun
    rw [Archive.after, if_neg hunknown]
    exact h
  | some i =>
    obtain ⟨s, hs, rfl⟩ := findIdx?_folders h.toFiles hi
    have hmem : s.nid ∈ a.nids := List.mem_map_of_mem (List.mem_of_getElem? hs)
    rw [Archive.after, if_pos hmem] at hfew ⊢
    have hskip := h.skip hfew
    rw [addMessage_known hi, h.messageNid_eq] at hrun
    rcases bind_eq_error.1 hrun with hrun | ⟨_, w₁, hnode, hrun⟩
    · obtain ⟨st, rfl, hfalters⟩ := addMessageNode_throws hrun
      obtain ⟨hst, hg⟩ := hfalters.stands hgood hskip.stands
      exact ⟨hskip.toFiles.grows hst hg, hskip.key, hskip.advertised⟩
    -- past its node nothing can be undone
    · obtain ⟨st, e', rfl, hst, hadds, -⟩ := addMessageNode_spec hnode hskip.stands
        (makeNid_lt _ _) (h.ok.nid_lt hmem)
      rcases bind_eq_error.1 hrun with hrow | ⟨_, _, _, hcount⟩
      · obtain ⟨⟨v, t⟩, hwrite, rfl⟩ := onto_eq_error.1 hrow
        have hfalters := (StreamingTable.writeRow_drives emitBlock_falters _ _).throws _ _ hwrite
        have hnbt := (hfalters.grows hgood hst.sound).nbt
        have hsame : v.nbt = w.ndb.nbt := hnodes
        rw [hnbt] at hsame
        exact absurd (hadds.nbt.symm.trans hsame) (by simp)
      · cases hcount

/-- A folder is made below one that is there. -/
theorem createFolder_known {parent : Nat} (name : Bytes)
    (hparent : (w.folders.folder? parent).isSome) : PstWriter.createFolder parent name w =
      .ok (w.makeFolder parent name 0).1 (w.makeFolder parent name 0).2 := by
  have hget (f : PstWriter → Writing Nat) : (get >>= f) w = f w w := rfl
  obtain ⟨f, hf⟩ := Option.isSome_iff_exists.1 hparent
  rw [PstWriter.createFolder, hget]
  simp only [hf]
  rfl

theorem createFolder_unknown {parent : Nat} (name : Bytes)
    (hparent : ¬(w.folders.folder? parent).isSome) : PstWriter.createFolder parent name w =
      .error ⟨"unknown folder id " ++ toString parent⟩ w := by
  have hget (f : PstWriter → Writing Nat) : (get >>= f) w = f w w := rfl
  rw [PstWriter.createFolder, hget]
  simp only [Option.not_isSome_iff_eq_none.1 hparent]
  rfl

theorem Filed.createFolder {parent id : Nat} {name : Bytes} (h : Filed key a w)
    (hrun : PstWriter.createFolder parent name w = .ok id w')
    (hfew : (a.addShelf parent name).Few) :
    id = folderNid a.shelves.length ∧ Filed key (a.addShelf parent name) w' := by
  by_cases hparent : (w.folders.folder? parent).isSome
  · have hmem : parent ∈ a.nids := h.toFiles.folder?_isSome_iff.1 hparent
    obtain ⟨made, hmake, hfiles, hkey, hadvertised⟩ := h.toFiles.makeFolder name hmem hfew
    rw [createFolder_known name hparent, hmake] at hrun
    cases hrun
    exact ⟨rfl, hfiles, hkey.trans h.key, hadvertised.trans h.advertised⟩
  · rw [createFolder_unknown name hparent] at hrun
    cases hrun

end

/-! ## The stream -/

/-- A stream that has failed does not recover. -/
def StaysBad (w w' : NdbWriter) : Prop := w.good = false → w'.good = false

def StoreStaysBad (s s' : StoreWriter) : Prop := StaysBad s.ndb s'.ndb

/-- And no call but `finish` closes the writer. -/
def WriterStaysBad (w w' : PstWriter) : Prop := StaysBad w.ndb w'.ndb ∧ w'.finished = w.finished

instance : Escapes StaysBad StaysBad where
  refl _ := id
  trans _ _ _ h h' := h' ∘ h
  stop _ := id
  after h h' := h' ∘ h

instance : Escapes StoreStaysBad StoreStaysBad where
  refl _ := id
  trans _ _ _ h h' := h' ∘ h
  stop _ := id
  after h h' := h' ∘ h

instance : Escapes WriterStaysBad WriterStaysBad where
  refl _ := ⟨id, rfl⟩
  trans _ _ _ h h' := ⟨h'.1 ∘ h.1, h'.2.trans h.2⟩
  stop _ := ⟨id, rfl⟩
  after h h' := ⟨h'.1 ∘ h.1, h'.2.trans h.2⟩

theorem emitBlock_staysBad (data : Bytes) (internal : Bool) :
    Drives StaysBad StaysBad (emitBlock data internal) := by
  intro w
  obtain ⟨hreturns, hthrows⟩ := emitBlock_falters data internal w
  exact ⟨fun bid w' h hbad => (hreturns bid w' h).good.trans hbad,
    fun e w' h hbad => (hthrows e w' h).bad hbad⟩

theorem buildMessage_staysBad (std : StdSort) (key : RecordKey) (m : Message) (nid : Nat)
    (embedded : Bool) : Drives (Outer StoreStaysBad) (Outer StoreStaysBad)
      (buildMessage std key nid embedded m) := by
  refine buildMessage_drives emitBlock_staysBad (fun _ _ h => h) (fun _ _ h => h) std key
    (fun nid embedded m s => ?_) m nid embedded
  obtain ⟨hreturns, hthrows⟩ := takeProperties_falters key nid embedded m s
  exact ⟨fun pc s' h hbad => (hreturns pc s' h).good.trans hbad,
    fun e s' h hbad => (hthrows e s' h).bad hbad⟩

namespace PstWriter

theorem onStore_drives {α : Type} {x : EStateM PstError StoreWriter α}
    (h : Drives StoreStaysBad StoreStaysBad x) :
    Drives WriterStaysBad WriterStaysBad (onStore x) :=
  h.onto (fun _ _ hr => ⟨hr, rfl⟩) fun _ _ he => ⟨he, rfl⟩

theorem onDisk_drives {α : Type} {x : Ndb α} (h : Drives StaysBad StaysBad x) :
    Drives WriterStaysBad WriterStaysBad (onDisk x) :=
  onStore_drives (onFile_drives (fun _ _ h => h) (fun _ _ h => h) h)

theorem onContents_drives {α : Type} {i : Nat} {x : Streaming StreamingTable α}
    (h : Drives (Outer StaysBad) (Outer StaysBad) x) :
    Drives WriterStaysBad WriterStaysBad (onContents i x) :=
  h.onto (fun _ _ hr => ⟨hr, rfl⟩) fun _ _ he => ⟨he, rfl⟩

theorem writeNodeFromHeap_drives (std : StdSort) (nid parent : Nat) (heap : Bytes)
    (subs : SubnodeAllocator) :
    Drives StaysBad StaysBad (writeNodeFromHeap std nid parent heap subs) :=
  drives_bind (writeHeap_drives emitBlock_staysBad std heap subs.entries) fun _ =>
    drives_modify fun _ => id

theorem addMessage_drives (std : StdSort) (folder : Nat) (m : Message) :
    Drives WriterStaysBad WriterStaysBad (addMessage std folder m) := by
  have hnode (nid : Nat) :
      Drives WriterStaysBad WriterStaysBad (addMessageNode std folder nid m) := by
    refine drives_get_bind fun w => drivesFrom_bind (onStore_drives (drives_withLocal
      (buildMessage_staysBad std _ m nid false)) w) fun built => ?_
    exact onDisk_drives (writeNodeFromHeap_drives std nid folder built.1 built.2)
  refine drives_get_bind fun w => ?_
  dsimp only
  split
  · exact drives_throw _ w
  · refine drivesFrom_bind (drivesFrom_set ⟨id, rfl⟩) fun _ => drives_bind (hnode _) fun _ => ?_
    refine drives_bind (onContents_drives (StreamingTable.writeRow_drives emitBlock_staysBad _))
      fun _ => drives_modify fun _ => ⟨id, rfl⟩

theorem createFolder_drives (parent : Nat) (name : Bytes) :
    Drives WriterStaysBad WriterStaysBad (createFolder parent name) := by
  refine drives_get_bind fun w => ?_
  dsimp only
  split
  · exact drives_throw _ w
  · exact drivesFrom_bind (drivesFrom_set ⟨id, rfl⟩) fun _ => drives_pure _

theorem PstCall.run_drives (std : StdSort) (call : PstCall) :
    Drives WriterStaysBad WriterStaysBad (call.run std) := by
  cases call with
  | createFolder parent name =>
    exact drives_bind (createFolder_drives parent name) fun _ => drives_pure _
  | addMessage folder m => exact addMessage_drives std folder m

end PstWriter

end Pst
end Imap2Pst
