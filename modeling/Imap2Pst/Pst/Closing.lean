import Imap2Pst.Pst.ReservedNodes

/-!
# Pst.Closing

What `finish` adds to a writer that holds an archive: four nodes for each folder, the reserved
nodes, the message store and the map of names.

* `Archive.folderPlans`  — the nodes of a folder.
* `Shelved.finish`       — the contents table that messages have gone to is there to be read.
* `Closing.writeFolders` — the nodes of the folders, one folder after the other.
* `writeMessageStore_realizes`, `writeNameIdMap_realizes` — the store and the names.
-/

namespace Imap2Pst
namespace Pst

open CxxStd

/-! ## Plans -/

/-- Calls that are made whatever the message. -/
def always (cs : List Setter) : List (Bool × Setter) := cs.map fun c => (true, c)

theorem made_always (cs : List Setter) : made (always cs) = cs := by
  induction cs with
  | nil => rfl
  | cons c cs ih => exact congrArg (c :: ·) ih

def letterPlan (key : RecordKey) (l : Letter) : NodePlan :=
  .view l.nid l.folder fun store n => MessageReads store key l.nid false n l.message

theorem Delivered.at {key : RecordKey} {w : NdbWriter} {l : Letter} {e : NbtEntry}
    (h : Delivered key w l e) : (letterPlan key l).At w e := ⟨h.nid, h.parent, h.fits, h.reads⟩

open PstWriter

namespace Archive

variable (a : Archive)

/-- The rows of a hierarchy table. -/
def hierarchy (nid : Nat) : List RowCalls := (a.children nid).map fun c => hierarchyRow (a.folder c)

def folderPlans (key : RecordKey) (s : Shelf) : List NodePlan :=
  [.context s.nid s.parent (always (folderSetters key (a.folder s))),
    .table (makeNid kNidTypeHierarchyTable (nidIndex s.nid)) s.nid hierarchyColumns
      (a.hierarchy s.nid),
    .table (makeNid kNidTypeContentsTable (nidIndex s.nid)) s.nid contentsColumns (a.rows s.nid),
    .table (makeNid kNidTypeAssocContentsTable (nidIndex s.nid)) s.nid associatedColumns []]

end Archive

/-! ## Tables -/

theorem SubnodesAt.bid_lt {w : NdbWriter} {bid : Nat} {entries : List SubnodeEntry}
    (h : SubnodesAt w bid entries) (hs : Sound w) : bid < 256 ^ 8 := by
  by_cases hzero : bid = 0
  · omega
  have hread := h w.store hs.covers
  rw [readSubnodes, if_neg hzero] at hread
  obtain ⟨data, hdata, -⟩ := Option.bind_eq_some_iff.1 hread
  obtain ⟨e, hfind, -⟩ := Option.map_eq_some_iff.1 hdata
  have hbid : e.bid = bid := by simpa using List.find?_some hfind
  exact hbid ▸ hs.bbt_fits e (List.mem_of_find?_eq_some hfind)

theorem NodeAt.fits {w : NdbWriter} {n : NodeData} {h : HeapNode} {entries : List SubnodeEntry}
    (hn : NodeAt w n.data n.sub h entries) (hs : Sound w) : n.Fits := by
  obtain ⟨blocks, htree, -⟩ := hn.tree
  obtain ⟨sorted, -, hsub⟩ := hn.subnodes
  exact ⟨htree.bid_lt hs, hsub.bid_lt hs⟩

/-- The table that was streamed is at the node. -/
theorem Shelved.finish {std : StdSort} {rows : List RowCalls} {w w' : NdbWriter}
    {t t' : StreamingTable} {n : NodeData} (h : Shelved rows w t)
    (ht : Tabular contentsColumns rows) (hnodup : (rows.map RowCalls.rowId).Nodup)
    (hrun : StreamingTable.finish std (w, t) = .ok n (w', t')) :
    Grows w w' ∧ n.Fits ∧ TableAt std w' n.data n.sub contentsColumns rows := by
  obtain ⟨heap, hst⟩ := h
  have ha := admissible_of_calls ht.few ht.tags ht.ids hnodup ht.matching
  obtain ⟨hf, htags⟩ := declared_fits ht.few
  obtain ⟨hg, heap', entries, hnode, htable⟩ := StreamingTable.finish_spec hrun hf
    (fun c hc => declared_lt ha.tags c.tag (htags ▸ List.mem_map_of_mem hc)) ha.ids ha.nodup hst
  exact ⟨hg, hnode.fits hg.sound, heap', entries, hnode, htable⟩

/-! ## Folders -/

theorem folderShape (key : RecordKey) (f : Folder) :
    (always (folderSetters key f)).map (fun p => p.2.shape) =
      [(PR_DISPLAY_NAME, 0), (PR_CONTENT_COUNT, 4), (PR_CONTENT_UNREAD, 4), (PR_SUBFOLDERS, 1),
        (PR_CONTAINER_CLASS, 0), (PR_ENTRYID, 0), (PR_RECORD_KEY, 0)] := by
  simp only [always, folderSetters, List.map_cons, List.map_nil, Setter.shape, Setter.tag,
    Setter.width]

theorem tabular_hierarchy {children : List Folder} (h : ∀ c ∈ children, c.nid < 2 ^ 32) :
    Tabular hierarchyColumns (children.map hierarchyRow) := by
  refine Tabular.of_shape [(PR_DISPLAY_NAME, 0), (PR_CONTENT_COUNT, 4), (PR_CONTENT_UNREAD, 4),
    (PR_SUBFOLDERS, 1), (PR_CONTAINER_CLASS, 0)] (by decide) (by decide) (fun r hr => ?_)
    (fun r hr => ?_) (by decide) (by decide) (by decide)
  · obtain ⟨c, hc, rfl⟩ := List.mem_map.1 hr
    exact h c hc
  · obtain ⟨c, -, rfl⟩ := List.mem_map.1 hr
    simp only [hierarchyRow, RowCalls.shape, List.map_cons, List.map_nil, CellValue.width]

theorem tabular_associated : Tabular associatedColumns [] :=
  ⟨by decide, by decide, fun _ h => absurd h List.not_mem_nil,
    fun _ h => absurd h List.not_mem_nil, fun _ h => absurd h List.not_mem_nil,
    fun _ h => absurd h List.not_mem_nil⟩

/-- The rows for folders that are there. -/
theorem childRows_eq_ok {t : FolderTable} {g : Shelf → Folder} {cs : List Shelf}
    (hfound : ∀ c ∈ cs, t.folder? c.nid = some (g c)) {rows : List RowCalls} {w w' : PstWriter}
    (hrun : each (childRow t) (cs.map Shelf.nid) w = .ok rows w') :
    w' = w ∧ rows = cs.map fun c => hierarchyRow (g c) := by
  induction cs generalizing w rows with
  | nil =>
    obtain ⟨rfl, rfl⟩ := pure_eq_ok.1 hrun
    exact ⟨rfl, rfl⟩
  | cons c cs ih =>
    obtain ⟨row, w₁, rest, hone, heach, rfl⟩ := each_cons_eq_ok.1 hrun
    have hrow : childRow t c.nid = pure (hierarchyRow (g c)) := by
      unfold childRow
      simp only [hfound c List.mem_cons_self]
    rw [hrow] at hone
    obtain ⟨rfl, rfl⟩ := pure_eq_ok.1 hone
    obtain ⟨rfl, rfl⟩ := ih (fun c' h => hfound c' (List.mem_cons_of_mem _ h)) heach
    exact ⟨rfl, rfl⟩

/-- A writer that has written its first `i` folders. -/
structure Closing (key : RecordKey) (a : Archive) (i : Nat) (w : PstWriter) : Prop where
  sound : Sound w.ndb
  names : ∃ seen, HoldsNames seen w.names
  folders : w.folders.folders = a.shelves.map a.folder
  guid : w.storeGuid = key
  advertised : w.advertised = (List.range 8).map folderNid
  shelved : w.contents.length = a.shelves.length
  contents : ∀ (j : Nat) (s : Shelf) (t : StreamingTable), i ≤ j → a.shelves[j]? = some s →
    w.contents[j]? = some t → Shelved (a.rows s.nid) w.ndb t
  nodes : Planned (a.letters.map (letterPlan key) ++
    (a.shelves.take i).flatMap (a.folderPlans key)) w.ndb w.ndb.nbt
  writable : w.ndb.finished = false

theorem Filed.closing {key : RecordKey} {a : Archive} {w : PstWriter} (h : Filed key a w) :
    Closing key a 0 w where
  sound := h.stands.sound
  names := h.stands.names
  folders := h.folders
  guid := h.key
  advertised := h.advertised
  shelved := h.shelved
  contents j s t _ := h.contents j s t
  nodes := by
    rw [List.take_zero, List.flatMap_nil, List.append_nil]
    have hnodes := h.nodes
    rw [h.key] at hnodes
    exact List.forall₂_map_left_iff.2 (hnodes.imp fun _ _ hd => hd.at)
  writable := h.writable

section

variable {std : StdSort} {key : RecordKey} {a : Archive} {w w' : PstWriter} {i : Nat}

theorem Archive.Ok.row_nids (h : a.Ok) (hfew : a.Few) (nid : Nat) :
    ((a.rows nid).map RowCalls.rowId).Nodup := by
  have hids : (a.rows nid).map RowCalls.rowId = (a.inside nid).map Letter.nid := by
    rw [rows, List.map_map]
    rfl
  rw [hids]
  exact (h.letters_nodup hfew).sublist (List.filter_sublist.map _)

theorem Archive.Ok.child_nids (h : a.Ok) (hfew : a.Few) (nid : Nat) :
    ((a.hierarchy nid).map RowCalls.rowId).Nodup := by
  have hids : (a.hierarchy nid).map RowCalls.rowId = (a.children nid).map Shelf.nid := by
    rw [hierarchy, List.map_map]
    rfl
  rw [hids]
  exact (h.nodup hfew).sublist ((List.filter_sublist.trans (List.drop_sublist _ _)).map _)

theorem Archive.child_mem {nid : Nat} {c : Shelf} (hc : c ∈ a.children nid) : c ∈ a.shelves :=
  List.mem_of_mem_drop (List.mem_of_mem_filter hc)

theorem Archive.Ok.tabular_hierarchy (h : a.Ok) (nid : Nat) :
    Tabular hierarchyColumns (a.hierarchy nid) := by
  have hmap : a.hierarchy nid = ((a.children nid).map a.folder).map hierarchyRow := by
    rw [hierarchy, List.map_map]
    rfl
  rw [hmap]
  refine Pst.tabular_hierarchy fun c hc => ?_
  obtain ⟨s, hs, rfl⟩ := List.mem_map.1 hc
  exact h.nid_lt (List.mem_map_of_mem (child_mem hs))

/-- The nodes of a folder, its contents table among them. -/
theorem Closing.writeFolder {s : Shelf} {u : Unit} (h : Closing key a i w) (hok : a.Ok)
    (hfew : a.Few) (hs : a.shelves[i]? = some s)
    (hrun : PstWriter.writeFolder std (a.folder s) i w = .ok u w') : Closing key a (i + 1) w' := by
  obtain ⟨hlt, hget⟩ := List.getElem?_eq_some_iff.1 hs
  have hmem := List.mem_of_getElem? hs
  have hnid : s.nid < 2 ^ 32 := hok.nid_lt (List.mem_map_of_mem hmem)
  have hparent : s.parent < 2 ^ 32 := hok.nid_lt (hok.parents hmem)
  unfold PstWriter.writeFolder at hrun
  obtain ⟨_, _, hget, hrun⟩ := bind_eq_ok.1 hrun
  obtain ⟨rfl, rfl⟩ := get_eq_ok.1 hget
  obtain ⟨_, w₁, hprops, hrun⟩ := bind_eq_ok.1 hrun
  obtain ⟨v₁, hprops', rfl⟩ := onDisk_eq_ok.1 hprops
  obtain ⟨rows, w₂, hrows, hrun⟩ := bind_eq_ok.1 hrun
  have hfound : ∀ c ∈ a.children s.nid, w.folders.folder? c.nid = some (a.folder c) := by
    intro c hc
    have hnodup := hok.nodup hfew
    rw [FolderTable.folder?, h.folders, find?_key_eq_some (by rwa [Archive.map_nid_folder])]
    exact ⟨List.mem_map_of_mem (Archive.child_mem hc), rfl⟩
  obtain ⟨rfl, rfl⟩ := childRows_eq_ok hfound hrows
  obtain ⟨_, w₃, htable, hrun⟩ := bind_eq_ok.1 hrun
  obtain ⟨v₃, htable', rfl⟩ := onDisk_eq_ok.1 htable
  obtain ⟨n, w₄, hcontents, hrun⟩ := bind_eq_ok.1 hrun
  obtain ⟨v₄, t', hcontents', rfl⟩ := onContents_eq_ok.1 hcontents
  obtain ⟨_, w₅, hadd, hassoc⟩ := bind_eq_ok.1 hrun
  obtain ⟨v₅, hadd', rfl⟩ := onDisk_eq_ok.1 hadd
  obtain ⟨v₆, hassoc', rfl⟩ := onDisk_eq_ok.1 hassoc
  dsimp only at hprops' htable' hcontents' hadd' hassoc'
  have hcontext : Realizes [.context s.nid s.parent (always (folderSetters key (a.folder s)))]
      (writeProperties std s.nid s.parent (built (folderSetters key (a.folder s)))) := by
    rw [← made_always (folderSetters key (a.folder s))]
    exact writeProperties_realizes hnid hparent (folderShape key (a.folder s)) (by decide)
      (by decide)
  rw [h.guid] at hprops'
  obtain ⟨es₁, hadds₁, hplanned₁⟩ := hcontext _ _ _ hprops' h.sound
  obtain ⟨es₂, hadds₂, hplanned₂⟩ := writeTable_realizes (makeNid_lt _ _) hnid
    (hok.tabular_hierarchy s.nid) (fun _ => hok.child_nids hfew s.nid) _ _ _ htable' hadds₁.sound
  have ht : w.contents[i]? = some (w.contents.getD i (.create [])) := by
    rw [List.getD_eq_getElem?_getD, List.getElem?_eq_getElem (h.shelved ▸ hlt), Option.getD_some]
  have hshelved : Shelved (a.rows s.nid) v₃ (w.contents.getD i (.create [])) := by
    obtain ⟨heap, hstream⟩ := h.contents i s _ le_rfl hs ht
    exact ⟨heap, hstream.adds (hadds₁.trans hadds₂)⟩
  obtain ⟨hg, hfits, hat⟩ := hshelved.finish (hok.tabular s.nid) (hok.row_nids hfew s.nid)
    hcontents'
  obtain ⟨es₃, hadds₃, hplanned₃⟩ := realizes_addNode
    (p := .table (makeNid kNidTypeContentsTable (nidIndex s.nid)) s.nid contentsColumns
      (a.rows s.nid))
    (makeNid_lt _ _) hfits.1 hfits.2 hnid hadd' hg.sound
    fun store hc => hat.hasRows (hok.tabular s.nid) (hok.row_nids hfew s.nid) hc
  obtain ⟨es₄, hadds₄, hplanned₄⟩ := writeTable_realizes (makeNid_lt _ _) hnid tabular_associated
    (fun _ => List.nodup_nil) _ _ _ hassoc' hadds₃.sound
  have hadds : Adds (es₁ ++ (es₂ ++ (es₃ ++ es₄))) w.ndb v₆ := by
    have hall := hadds₁.trans (hadds₂.trans (hg.adds.trans (hadds₃.trans hadds₄)))
    rwa [List.nil_append] at hall
  have hplanned : Planned (a.folderPlans key s) v₆ (es₁ ++ (es₂ ++ (es₃ ++ es₄))) := by
    have hlast := hadds₃.trans hadds₄
    refine List.rel_append (hplanned₁.adds (hadds₂.trans (hg.adds.trans hlast)))
      (List.rel_append (hplanned₂.adds (hg.adds.trans hlast))
        (List.rel_append (hplanned₃.adds hadds₄) hplanned₄))
  refine ⟨hadds₄.sound, h.names, h.folders, h.guid, h.advertised,
    (List.length_set ..).trans h.shelved, fun j s' t hj hs' ht' => ?_, ?_,
    hadds.finished.trans h.writable⟩
  · replace ht' : (w.contents.set i t')[j]? = some t := ht'
    rw [List.getElem?_set_ne (by omega)] at ht'
    obtain ⟨heap, hstream⟩ := h.contents j s' t (by omega) hs' ht'
    exact ⟨heap, hstream.adds hadds⟩
  · show Planned _ v₆ v₆.nbt
    rw [List.take_add_one, hs, Option.toList_some, List.flatMap_append, List.flatMap_singleton,
      ← List.append_assoc, hadds.nbt]
    exact List.rel_append (h.nodes.adds hadds) hplanned

theorem Closing.writeFolders (h : Closing key a 0 w) (hok : a.Ok) (hfew : a.Few) {u : Unit}
    (hrun : PstWriter.writeFolders std w = .ok u w') : Closing key a a.shelves.length w' := by
  unfold PstWriter.writeFolders at hrun
  obtain ⟨_, _, hget, hrun⟩ := bind_eq_ok.1 hrun
  obtain ⟨rfl, rfl⟩ := get_eq_ok.1 hget
  obtain ⟨units, w₁, heach, hpure⟩ := bind_eq_ok.1 hrun
  obtain ⟨-, rfl⟩ := pure_eq_ok.1 hpure
  rw [h.folders] at heach
  -- the folders before, and those to come
  suffices hsuffix : ∀ (rest done : List Shelf) (w : PstWriter) (units : List Unit),
      a.shelves = done ++ rest → Closing key a done.length w →
      each (fun fi : Folder × Nat => PstWriter.writeFolder std fi.1 fi.2)
        ((rest.map a.folder).zipIdx done.length) w = .ok units w₁ →
      Closing key a a.shelves.length w₁ from hsuffix a.shelves [] w units rfl h heach
  intro rest
  induction rest with
  | nil =>
    intro done w units hsplit hclosing hrun
    obtain ⟨-, rfl⟩ := pure_eq_ok.1 hrun
    rw [hsplit, List.append_nil]
    exact hclosing
  | cons s rest ih =>
    intro done w units hsplit hclosing hrun
    rw [List.map_cons, List.zipIdx_cons] at hrun
    obtain ⟨_, w₂, _, hone, heach, -⟩ := each_cons_eq_ok.1 hrun
    have hs : a.shelves[done.length]? = some s := by
      rw [hsplit, List.getElem?_append_right le_rfl, Nat.sub_self]
      rfl
    have hnext := hclosing.writeFolder hok hfew hs hone
    have hlen : (done ++ [s]).length = done.length + 1 := by
      rw [List.length_append, List.length_singleton]
    rw [← hlen] at hnext heach
    exact ih (done ++ [s]) w₂ _ (by rw [hsplit, List.append_assoc]; rfl) hnext heach

end

/-! ## The message store and the map of names -/

/-- The properties of the message store: it advertises the first eight folders. -/
def storeCalls (key : RecordKey) : List Setter :=
  [.binary PR_RECORD_KEY key.toList, .int32 PR_PST_PASSWORD 0,
    .string PR_DISPLAY_NAME (str "Personal Folders"),
    .binary PR_IPM_SUBTREE_ENTRYID (entryId key (folderNid 1)),
    .binary PR_IPM_WASTEBASKET_ENTRYID (entryId key (folderNid 2)),
    .binary PR_IPM_SENTMAIL_ENTRYID (entryId key (folderNid 3)),
    .binary PR_IPM_OUTBOX_ENTRYID (entryId key (folderNid 4)),
    .binary PR_FINDER_ENTRYID (entryId key (folderNid 5)),
    .binary PR_VIEWS_ENTRYID (entryId key (folderNid 6)),
    .binary PR_COMMON_VIEWS_ENTRYID (entryId key (folderNid 7)),
    .binary PR_ENTRYID (entryId key (folderNid 0)),
    .int32 PR_VALID_FOLDER_MASK (0x01 ||| 0x04 ||| 0x08 ||| 0x10 ||| 0x20 ||| 0x40 ||| 0x80)]

theorem storeSetters_eq {w : PstWriter} (h : w.advertised = (List.range 8).map folderNid) :
    storeSetters w = storeCalls w.storeGuid := by
  have hfolders : [w.rootFolder, w.ipmSubtree, w.deletedItems, w.sentItems, w.outbox, w.searchRoot,
      w.views, w.commonViews] = [folderNid 0, folderNid 1, folderNid 2, folderNid 3, folderNid 4,
        folderNid 5, folderNid 6, folderNid 7] := h
  simp only [List.cons.injEq] at hfolders
  obtain ⟨hroot, hipm, hdeleted, hsent, houtbox, hsearch, hviews, hcommon, -⟩ := hfolders
  rw [storeSetters, storeCalls, hroot, hipm, hdeleted, hsent, houtbox, hsearch, hviews, hcommon]

theorem storeShape (key : RecordKey) : (always (storeCalls key)).map (fun p => p.2.shape) =
    [(PR_RECORD_KEY, 0), (PR_PST_PASSWORD, 4), (PR_DISPLAY_NAME, 0), (PR_IPM_SUBTREE_ENTRYID, 0),
      (PR_IPM_WASTEBASKET_ENTRYID, 0), (PR_IPM_SENTMAIL_ENTRYID, 0), (PR_IPM_OUTBOX_ENTRYID, 0),
      (PR_FINDER_ENTRYID, 0), (PR_VIEWS_ENTRYID, 0), (PR_COMMON_VIEWS_ENTRYID, 0),
      (PR_ENTRYID, 0), (PR_VALID_FOLDER_MASK, 4)] := by
  simp only [always, storeCalls, List.map_cons, List.map_nil, Setter.shape, Setter.tag,
    Setter.width]

def storePlan (key : RecordKey) : NodePlan :=
  .context kNidMessageStore 0 (always (storeCalls key))

/-- The octets of a binary property, none when it is absent. -/
def nodeStream (store : Store) (n : NodeView) (id : Nat) : Bytes :=
  match readProperty store n id with
  | some (_, .octets b) => b
  | _ => []

/-- The string entries of the map of names, each with the GUID and the name. -/
def nodeNames (store : Store) (n : NodeView) : List (Option Bytes × Option Bytes) :=
  ((readRecords (nodeStream store n 0x0003)).filter NameRecord.isString).map fun r =>
    (readGuid (nodeStream store n 0x0002) r.wGuid, readString (nodeStream store n 0x0004) r.numeric)

/-- Keywords, and then the header names, the first spelling of each. -/
def namesPlan (seen : List Bytes) : NodePlan :=
  .view kNidNameToIdMap 0 fun store n =>
    nodeNames store n = expectedEntries (seen.take (kMaxNames - 1))

theorem PcAt.streams {w : NdbWriter} {h : HeapNode} {entries : List SubnodeEntry}
    {names : NameIdMap} (hp : PcAt w h entries names.buildPropertyContext) (hok : h.Ok)
    {n : NodeView} (hreads : NodeReads n h entries) {store : Store} (hc : Covers store w) :
    nodeNames store n = stringEntries names.buildPropertyContext := by
  have hstream {id tag : Nat} {b : Bytes} (hid : tagId tag = id)
      (htype : propIsInline (tagType tag) = false)
      (hfind : names.buildPropertyContext.find id = some (tag, .bytes b)) :
      nodeStream store n id = streamOf names.buildPropertyContext id := by
    have hread := (hp.reads_view hok hreads hc).1 (tag, .bytes b) (List.mem_of_find?_eq_some hfind)
      (by simp [Typed, htype]) _ (.bytes b)
    dsimp only at hread
    rw [hid] at hread
    simp only [nodeStream, hread, streamOf, hfind]
  have hfind (id : Nat) (hid : id < 0x1000) :
      names.buildPropertyContext.find id = names.streams.find id := by
    rw [NameIdMap.find_buildPropertyContext, if_neg (by omega)]
  have hguids : nodeStream store n 0x0002 = streamOf names.buildPropertyContext 0x0002 :=
    hstream (by decide) (by decide) ((hfind 2 (by decide)).trans (names.find_streams 2))
  have hentries : nodeStream store n 0x0003 = streamOf names.buildPropertyContext 0x0003 :=
    hstream (by decide) (by decide) ((hfind 3 (by decide)).trans (names.find_streams 3))
  have hstrings : nodeStream store n 0x0004 = streamOf names.buildPropertyContext 0x0004 :=
    hstream (by decide) (by decide) ((hfind 4 (by decide)).trans (names.find_streams 4))
  rw [nodeNames, hguids, hentries, hstrings]
  rfl

section

variable {std : StdSort}

theorem writeMessageStore_realizes {w : PstWriter}
    (h : w.advertised = (List.range 8).map folderNid) :
    Realizes [storePlan w.storeGuid] (writeMessageStore std w) := by
  rw [writeMessageStore, storeSetters_eq h, ← made_always (storeCalls w.storeGuid)]
  exact writeProperties_realizes (by decide) zero_lt_parent (storeShape w.storeGuid)
    (by decide) (by decide)

theorem writeNameIdMap_realizes {names : NameIdMap} {seen : List Bytes}
    (h : HoldsNames seen names) : Realizes [namesPlan seen] (writeNameIdMap std names) := by
  intro w u w'' hrun hs
  unfold writeNameIdMap writeProperties at hrun
  obtain ⟨⟨heap, subs⟩, w', hlocal, hnode⟩ := bind_eq_ok.1 hrun
  have hserialize := withLocal_eq_ok.1 hlocal
  obtain ⟨h', rfl, hok, hroot, hg, -, hsok, hp⟩ :=
    PropertyContext.serialize_spec hserialize hs SubnodeAllocator.ok_new
  obtain ⟨es, hadds, hplanned⟩ := view_of_heap hnode hg.sound hok hroot hsok (by decide)
    zero_lt_parent
    (P := fun store n => nodeNames store n = expectedEntries (seen.take (kMaxNames - 1)))
    fun store n hc hreads =>
      (hp.streams hok hreads hc).trans (h.stringEntries (strings_short hserialize))
  exact ⟨es, hg.adds.trans hadds, hplanned⟩

end

end Pst
end Imap2Pst
