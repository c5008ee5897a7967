import Imap2Pst.Pst.Closing
import Imap2Pst.Pst.Runs

/-!
# Pst.ClosedStore

A store that has been closed, as a reader finds it: the archive, and nothing else.

* `archiveNids_nodup` — no two nodes of a store have one NID.
* `Contains`          — the file has the nodes of a list of plans, and no others.
* `runStore_contains` — so it is whatever a caller did, and whatever threw on the way.
-/

namespace Imap2Pst
namespace Pst

open CxxStd
open PstWriter

/-! ## The nodes of a store -/

/-- The nodes of a finished store, in the order they are added. -/
def archivePlans (key : RecordKey) (a : Archive) (seen : List Bytes) : List NodePlan :=
  a.letters.map (letterPlan key) ++ (a.shelves.flatMap (a.folderPlans key) ++
    (reservedPlans (folderNid 1) ++ [storePlan key, namesPlan seen]))

/-- The NIDs of the nodes of a folder. -/
def folderNids (nid : Nat) : List Nat :=
  [nid, makeNid kNidTypeHierarchyTable (nidIndex nid), makeNid kNidTypeContentsTable (nidIndex nid),
    makeNid kNidTypeAssocContentsTable (nidIndex nid)]

/-- The NIDs that every store has. -/
def fixedNids : List Nat :=
  kTemplates.map Prod.fst ++ [kNidSearchActivityList, kNidSearchDomainObject, kNidHmpGuidMap,
    kNidHmpIdMap] ++ kDeclared ++ [kNidMessageStore, kNidNameToIdMap]

def archiveNids (a : Archive) : List Nat :=
  a.letters.map Letter.nid ++ (a.nids.flatMap folderNids ++ fixedNids)

theorem archivePlans_nids (key : RecordKey) (a : Archive) (seen : List Bytes) :
    (archivePlans key a seen).map NodePlan.nid = archiveNids a := by
  have hfolders : (a.shelves.flatMap (a.folderPlans key)).map NodePlan.nid =
      a.nids.flatMap folderNids := by
    rw [List.map_flatMap, Archive.nids, List.flatMap_map]
    rfl
  have hfixed : (reservedPlans (folderNid 1) ++ [storePlan key, namesPlan seen]).map NodePlan.nid =
      fixedNids := rfl
  rw [archivePlans, List.map_append, List.map_append, hfolders, hfixed, List.map_map]
  rfl

/-- The index of the NID of the folder with `i` before it. -/
def shelfIndex : Nat → Nat
  | 0 => 9
  | i + 1 => kFirstUserNidIndex + i

theorem folderNid_eq {i : Nat} (hi : i ≤ 2 ^ 27 - kFirstUserNidIndex) :
    folderNid i = 32 * shelfIndex i + 2 := by
  have hfirst : kFirstUserNidIndex = 1024 := rfl
  cases i with
  | zero => rfl
  | succ i => exact makeNid_of_lt (by decide) (by omega)

theorem shelfIndex_lt {i : Nat} (hi : i ≤ 2 ^ 27 - kFirstUserNidIndex) : shelfIndex i < 2 ^ 27 := by
  have hfirst : kFirstUserNidIndex = 1024 := rfl
  cases i with
  | zero => decide
  | succ i =>
    rw [shelfIndex]
    omega

theorem shelfIndex_inj {i j : Nat} (h : shelfIndex i = shelfIndex j) : i = j := by
  have hfirst : kFirstUserNidIndex = 1024 := rfl
  cases i <;> cases j <;> simp only [shelfIndex] at h <;> omega

theorem nidIndex_folderNid {i : Nat} (hi : i ≤ 2 ^ 27 - kFirstUserNidIndex) :
    nidIndex (folderNid i) = shelfIndex i := by
  rw [folderNid_eq hi, nidIndex, Nat.shiftRight_eq_div_pow]
  omega

/-- The index tells the folder, the type the node. -/
theorem mem_folderNids {i x : Nat} (hi : i ≤ 2 ^ 27 - kFirstUserNidIndex)
    (hx : x ∈ folderNids (folderNid i)) :
    x / 32 = shelfIndex i ∧ (x % 32 = 2 ∨ x % 32 = 13 ∨ x % 32 = 14 ∨ x % 32 = 15) := by
  have hlt := shelfIndex_lt hi
  have hindex := nidIndex_folderNid hi
  have htypes : kNidTypeHierarchyTable = 13 ∧ kNidTypeContentsTable = 14 ∧
      kNidTypeAssocContentsTable = 15 := ⟨rfl, rfl, rfl⟩
  rw [folderNids, hindex, makeNid_of_lt (by decide) hlt, makeNid_of_lt (by decide) hlt,
    makeNid_of_lt (by decide) hlt, folderNid_eq hi] at hx
  simp only [List.mem_cons, List.not_mem_nil, or_false] at hx
  omega

theorem folderNids_nodup {i : Nat} (hi : i ≤ 2 ^ 27 - kFirstUserNidIndex) :
    (folderNids (folderNid i)).Nodup := by
  have hfirst : kFirstUserNidIndex = 1024 := rfl
  have hlt : shelfIndex i < 2 ^ 27 := shelfIndex_lt hi
  rw [folderNids, nidIndex_folderNid hi, makeNid_of_lt (by decide) hlt,
    makeNid_of_lt (by decide) hlt, makeNid_of_lt (by decide) hlt, folderNid_eq hi]
  have htypes : kNidTypeHierarchyTable = 13 ∧ kNidTypeContentsTable = 14 ∧
      kNidTypeAssocContentsTable = 15 := ⟨rfl, rfl, rfl⟩
  simp only [List.nodup_cons, List.mem_cons, List.not_mem_nil, or_false, not_or, List.nodup_nil,
    and_true, not_false_eq_true]
  omega

theorem archiveNids_nodup {a : Archive} (h : a.Ok) (hfew : a.Few) : (archiveNids a).Nodup := by
  have hfirst : kFirstUserNidIndex = 1024 := rfl
  have hshelves := hfew.shelves
  have hplace {x : Nat} (hx : x ∈ a.nids.flatMap folderNids) : ∃ i < a.shelves.length,
      x ∈ folderNids (folderNid i) := by
    obtain ⟨nid, hnid, hx⟩ := List.mem_flatMap.1 hx
    rw [h.nids] at hnid
    obtain ⟨i, hi, rfl⟩ := List.mem_map.1 hnid
    exact ⟨i, List.mem_range.1 hi, hx⟩
  have hletter {x : Nat} (hx : x ∈ a.letters.map Letter.nid) : x % 32 = 4 := by
    obtain ⟨l, hl, rfl⟩ := List.mem_map.1 hx
    obtain ⟨j, hj, heq⟩ := h.letter_nid hl
    have hnumbered := hfew.letters
    have htype : kNidTypeNormalMessage = 4 := rfl
    rw [heq, messageNid, makeNid_of_lt (by decide) (by omega)]
    omega
  have hfixed : ∀ x ∈ fixedNids, x % 32 ≠ 4 ∧
      (x % 32 = 2 ∨ x % 32 = 13 ∨ x % 32 = 14 ∨ x % 32 = 15 → x / 32 < 1024 ∧ x / 32 ≠ 9) := by
    decide
  refine List.nodup_append'.2
    ⟨h.letters_nodup hfew, List.nodup_append'.2 ⟨?_, by decide, ?_⟩, ?_⟩
  · rw [List.nodup_flatMap, h.nids]
    refine ⟨fun nid hnid => ?_, ?_⟩
    · obtain ⟨i, hi, rfl⟩ := List.mem_map.1 hnid
      have hlt := List.mem_range.1 hi
      exact folderNids_nodup (by omega)
    · rw [List.pairwise_map]
      refine List.nodup_range.imp_of_mem fun {i j} hi hj hne x hx hx' => ?_
      have hi' := List.mem_range.1 hi
      have hj' := List.mem_range.1 hj
      obtain ⟨hxi, -⟩ := mem_folderNids (by omega) hx
      obtain ⟨hxj, -⟩ := mem_folderNids (by omega) hx'
      exact hne (shelfIndex_inj (hxi.symm.trans hxj))
  · intro x hx hx'
    obtain ⟨i, hi, hx⟩ := hplace hx
    obtain ⟨hindex, htype⟩ := mem_folderNids (by omega) hx
    obtain ⟨hlt, hne⟩ := (hfixed x hx').2 htype
    cases i with
    | zero => exact hne hindex
    | succ i =>
      rw [shelfIndex] at hindex
      omega
  · intro x hx hx'
    have htype := hletter hx
    rcases List.mem_append.1 hx' with hx' | hx'
    · obtain ⟨i, hi, hx'⟩ := hplace hx'
      obtain ⟨-, htypes⟩ := mem_folderNids (by omega) hx'
      omega
    · exact (hfixed x hx').1 htype

/-! ## Finishing -/

section

variable {std : StdSort} {key : RecordKey} {a : Archive} {w w' : PstWriter}

/-- The file that is closed has the nodes of the archive. -/
theorem Filed.finish {u : Unit} (h : Filed key a w) (hfew : a.Few)
    (hrun : PstWriter.finish std w = .ok u w') : ∃ seen v w₂ nbt bbt, Sound v ∧
      Planned (archivePlans key a seen) v v.nbt ∧ Finished std v w₂ nbt bbt ∧
      w'.ndb.file = closedFile w₂ nbt bbt := by
  unfold PstWriter.finish at hrun
  obtain ⟨_, _, hget, hrun⟩ := bind_eq_ok.1 hrun
  obtain ⟨rfl, rfl⟩ := get_eq_ok.1 hget
  rcases ite_eq_ok.1 hrun with ⟨hdone, _⟩ | ⟨_, hrun⟩
  · rw [h.unfinished] at hdone
    cases hdone
  obtain ⟨_, w₁, hset, hrun⟩ := bind_eq_ok.1 hrun
  cases set_eq_ok.1 hset
  obtain ⟨_, w₂, hfolders, hrun⟩ := bind_eq_ok.1 hrun
  have hstart := h.closing
  have hclosing : Closing key a 0 { w with finished := true } := ⟨hstart.sound, hstart.names,
    hstart.folders, hstart.guid, hstart.advertised, hstart.shelved, hstart.contents, hstart.nodes,
    hstart.writable⟩
  have hclosed := hclosing.writeFolders h.ok hfew hfolders
  obtain ⟨_, _, hget, hrun⟩ := bind_eq_ok.1 hrun
  obtain ⟨rfl, rfl⟩ := get_eq_ok.1 hget
  obtain ⟨_, w₃, hreserved, hrun⟩ := bind_eq_ok.1 hrun
  obtain ⟨v₃, hreserved', rfl⟩ := onDisk_eq_ok.1 hreserved
  obtain ⟨_, w₄, hstore, hrun⟩ := bind_eq_ok.1 hrun
  obtain ⟨v₄, hstore', rfl⟩ := onDisk_eq_ok.1 hstore
  obtain ⟨_, w₅, hnames, hfinish⟩ := bind_eq_ok.1 hrun
  obtain ⟨v₅, hnames', rfl⟩ := onDisk_eq_ok.1 hnames
  obtain ⟨v₆, hfinish', rfl⟩ := onDisk_eq_ok.1 hfinish
  dsimp only at hreserved' hstore' hnames' hfinish'
  obtain ⟨seen, hseen⟩ := hclosed.names
  have hipm : w₂.ipmSubtree = folderNid 1 :=
    (List.cons.inj (List.cons.inj hclosed.advertised).2).1
  rw [hipm] at hreserved'
  obtain ⟨es₃, hadds₃, hplanned₃⟩ :=
    writeReservedNodes_realizes (folderNid_lt 1) _ _ _ hreserved' hclosed.sound
  obtain ⟨es₄, hadds₄, hplanned₄⟩ :=
    writeMessageStore_realizes hclosed.advertised _ _ _ hstore' hadds₃.sound
  obtain ⟨es₅, hadds₅, hplanned₅⟩ := writeNameIdMap_realizes hseen _ _ _ hnames' hadds₄.sound
  have hadds := hadds₃.trans (hadds₄.trans hadds₅)
  obtain ⟨u₂, nbt, bbt, fate, hfinished, rfl⟩ := finish_spec hfinish' hadds₅.sound
    (hadds.finished.trans hclosed.writable)
  refine ⟨seen, v₅, u₂, nbt, bbt, hadds₅.sound, ?_, hfinished, rfl⟩
  have hnodes := hclosed.nodes
  rw [List.take_length] at hnodes
  rw [hclosed.guid] at hplanned₄
  rw [hadds.nbt, archivePlans, ← List.append_assoc]
  exact List.rel_append (hnodes.adds hadds) (List.rel_append (hplanned₃.adds (hadds₄.trans hadds₅))
    (List.rel_append (hplanned₄.adds hadds₅) hplanned₅))

end

/-! ## The stream -/

section

variable (std : StdSort)

theorem writeProperties_drives (nid parent : Nat) (pc : PropertyContext) :
    Drives StaysBad StaysBad (writeProperties std nid parent pc) :=
  drives_bind (drives_withLocal (serialize_drives emitBlock_staysBad std pc)) fun p =>
    writeNodeFromHeap_drives std nid parent p.1 p.2

theorem writeTable_drives (nid parent : Nat) (columns : List Nat) (rows : List RowCalls) :
    Drives StaysBad StaysBad (writeTable std nid parent columns rows) :=
  drives_bind (TableContext.node_drives emitBlock_staysBad std columns _) fun _ =>
    drives_modify fun _ => id

theorem childRow_drives (t : FolderTable) (nid : Nat) :
    Drives WriterStaysBad WriterStaysBad (childRow t nid) := by
  unfold childRow
  split
  · exact drives_throw _
  · exact drives_pure _

theorem writeFolder_drives (f : Folder) (i : Nat) :
    Drives WriterStaysBad WriterStaysBad (PstWriter.writeFolder std f i) := by
  refine drives_get_bind fun w =>
    drivesFrom_bind (onDisk_drives (writeProperties_drives std _ _ _) w) fun _ => ?_
  refine drives_bind (drives_each fun nid _ => childRow_drives _ nid) fun rows => ?_
  refine drives_bind (onDisk_drives (writeTable_drives std _ _ _ _)) fun _ => ?_
  refine drives_bind (onContents_drives (StreamingTable.finish_drives emitBlock_staysBad std))
    fun n => ?_
  exact drives_bind (onDisk_drives (drives_modify fun _ => id)) fun _ =>
    onDisk_drives (writeTable_drives std _ _ _ _)

variable {std} {w w' : PstWriter}

/-- A store is closed only on a stream that is good. -/
theorem finish_good {u : Unit} (hrun : PstWriter.finish std w = .ok u w')
    (hopen : w.finished = false) : w.ndb.good = true := by
  by_contra hgood
  replace hgood := Bool.eq_false_of_not_eq_true hgood
  unfold PstWriter.finish at hrun
  obtain ⟨_, _, hget, hrun⟩ := bind_eq_ok.1 hrun
  obtain ⟨rfl, rfl⟩ := get_eq_ok.1 hget
  rcases ite_eq_ok.1 hrun with ⟨hdone, _⟩ | ⟨_, hrun⟩
  · rw [hopen] at hdone
    cases hdone
  obtain ⟨_, w₁, hset, hrun⟩ := bind_eq_ok.1 hrun
  cases set_eq_ok.1 hset
  obtain ⟨_, w₂, hfolders, hrun⟩ := bind_eq_ok.1 hrun
  have hfoldersBad : Drives WriterStaysBad WriterStaysBad (PstWriter.writeFolders std) := by
    refine drives_get_bind fun w => ?_
    exact drives_bind (drives_each fun fi _ => writeFolder_drives std fi.1 fi.2)
      (fun _ => drives_pure _) w
  have hbad₂ := ((hfoldersBad _).returns _ _ hfolders).1 hgood
  obtain ⟨_, _, hget, hrun⟩ := bind_eq_ok.1 hrun
  obtain ⟨rfl, rfl⟩ := get_eq_ok.1 hget
  obtain ⟨_, w₃, hreserved, -⟩ := bind_eq_ok.1 hrun
  obtain ⟨v₃, hreserved', -⟩ := onDisk_eq_ok.1 hreserved
  unfold writeReservedNodes at hreserved'
  obtain ⟨_, v₁, htemplates, hrest⟩ := bind_eq_ok.1 hreserved'
  have htemplatesBad : Drives StaysBad StaysBad (each (fun t : Nat × List Nat =>
      writeTable std t.1 0 t.2 (templateRows w₂.ipmSubtree t.1)) kTemplates) :=
    drives_each fun t _ => writeTable_drives std _ _ _ _
  have hbad₁ := (htemplatesBad _).returns _ _ htemplates hbad₂
  -- the search activity list is a block
  obtain ⟨data, v₂, hdata, -⟩ := bind_eq_ok.1 hrest
  rw [writeData, if_pos (by decide : ([] : Bytes).length ≤ kMaxBlockData)] at hdata
  rw [(emitBlock_good hdata).1] at hbad₁
  cases hbad₁

end

/-! ## What is read -/

/-- The node that is planned, as it is found in a file. -/
def NodePlan.In (p : NodePlan) (f : File) : Prop :=
  ∃ e, fileNode f p.nid = some e ∧ e.parent = p.parent ∧ p.reads (fileStore f) e.data e.sub

/-- The file has these nodes and no others. -/
structure Contains (plans : List NodePlan) (f : File) : Prop where
  present : ∀ p ∈ plans, p.In f
  absent : ∀ nid ∉ plans.map NodePlan.nid, fileNode f nid = none

theorem Planned.contains {std : StdSort} {plans : List NodePlan} {v w₂ : NdbWriter}
    {nbt bbt : Bref} (h : Planned plans v v.nbt) (hs : Sound v)
    (hnodup : (plans.map NodePlan.nid).Nodup) (hfinished : Finished std v w₂ nbt bbt) :
    Contains plans (closedFile w₂ nbt bbt) := by
  have hdistinct : (v.nbt.map NbtEntry.nid).Nodup := h.nids ▸ hnodup
  have hnode := hfinished.fileNode_eq h.fits hdistinct
  refine ⟨fun p hp => ?_, fun nid hnid => ?_⟩
  · obtain ⟨e, he, hat⟩ := h.at_of_mem hp
    refine ⟨e, ?_, hat.parent, hat.reads _ (hfinished.covers hs)⟩
    rw [hnode, (find?_key_eq_some hdistinct).2 ⟨he, hat.nid⟩]
  · rw [hnode, List.find?_eq_none]
    intro e he heq
    rw [← h.nids] at hnid
    exact hnid (of_decide_eq_true heq ▸ List.mem_map_of_mem he)

/-- A store that is closed contains the nodes of its archive. -/
theorem Filed.contains {std : StdSort} {key : RecordKey} {a : Archive} {w w' : PstWriter} {u : Unit}
    (h : Filed key a w) (hfew : a.Few) (hrun : PstWriter.finish std w = .ok u w') :
    ∃ seen, Contains (archivePlans key a seen) w'.ndb.file := by
  obtain ⟨seen, v, w₂, nbt, bbt, hs, hplanned, hfinished, hfile⟩ := h.finish hfew hrun
  have hnodup : ((archivePlans key a seen).map NodePlan.nid).Nodup := by
    rw [archivePlans_nids]
    exact archiveNids_nodup h.ok hfew
  exact ⟨seen, hfile ▸ hplanned.contains hs hnodup hfinished⟩

/-! ## Runs -/

/-- A caller creates a writer, makes some calls, catching what they throw, and finishes: which
calls returned, and the file. -/
def runStore (std : StdSort) (key : RecordKey) (fate : Nat → Bool) (clock : Nat → Int)
    (calls : List PstCall) : Option (List (Option Unit) × File) :=
  match create (blank key fate clock) with
  | .error _ _ => none
  | .ok _ w =>
    match PstWriter.finish std (tryEach (PstCall.run std) calls w).2 with
    | .error _ _ => none
    | .ok _ w' => some ((tryEach (PstCall.run std) calls w).1, w'.ndb.file)

/-- No call throws once it has added a node. -/
def AllStopEarly (std : StdSort) (key : RecordKey) (fate : Nat → Bool) (clock : Nat → Int)
    (calls : List PstCall) : Prop :=
  ∀ w, create (blank key fate clock) = .ok () w → AtEach (StopsEarly std) (PstCall.run std) calls w

section

variable {std : StdSort} {key : RecordKey} {fate : Nat → Bool} {clock : Nat → Int}
  {calls : List PstCall} {results : List (Option Unit)} {f : File}

theorem runStore_eq_some (hrun : runStore std key fate clock calls = some (results, f)) :
    ∃ w w', create (blank key fate clock) = .ok () w ∧
      (tryEach (PstCall.run std) calls w).1 = results ∧
      PstWriter.finish std (tryEach (PstCall.run std) calls w).2 = .ok () w' ∧ w'.ndb.file = f := by
  unfold runStore at hrun
  split at hrun
  · cases hrun
  · rename_i w hcreate
    split at hrun
    · cases hrun
    · rename_i w' hfinish
      cases hrun
      exact ⟨w, w', hcreate, rfl, hfinish, rfl⟩

/-- The file has the nodes of the archive that the calls amount to. -/
theorem runStore_contains (hrun : runStore std key fate clock calls = some (results, f))
    (hstops : AllStopEarly std key fate clock calls)
    (hfew : (Archive.start.afterAll calls results).Few) :
    (Archive.start.afterAll calls results).Ok ∧
      ∃ seen, Contains (archivePlans key (Archive.start.afterAll calls results) seen) f := by
  obtain ⟨w, w', hcreate, rfl, hfinish, rfl⟩ := runStore_eq_some hrun
  have hfiled := filed_create hcreate
  have hkept : WriterStaysBad w (tryEach (PstCall.run std) calls w).2 :=
    tryEach_drives (fun call _ => call.run_drives std) w
  have hgood := finish_good hfinish (hkept.2.trans hfiled.unfinished)
  have hfiled' := filed_run (fun _ => hfiled) (hstops w hcreate) hfew hgood
  exact ⟨hfiled'.ok, hfiled'.contains hfew hfinish⟩

end

end Pst
end Imap2Pst
