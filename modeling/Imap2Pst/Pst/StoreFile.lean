import Imap2Pst.Pst.ClosedStore

/-!
# Pst.StoreFile

The file that a caller is left with, read from its header on. The caller creates folders and adds
messages in any order and to any number of folders, goes on when a call throws, and finishes.

* `messages_read`, `contents_read` — every message, and the list of the messages of a folder.
* `folders_read`, `folder_tree`    — every folder, and the tree they form.
* `nodes_exact`                    — which nodes the file has.
* `furniture_read`                 — what is there whatever the caller did.
* `writer_holds_archive`           — the writer before it finishes.
* `failed_stream_never_closes`     — a write that has failed is not forgotten.
-/

namespace Imap2Pst
namespace Pst

open CxxStd
open PstWriter

/-! ## Runs in which every call returns -/

/-- A call that returns does not throw late. -/
theorem atEach_of_returned {std : StdSort} {calls : List PstCall} {w : PstWriter}
    (h : ∀ r ∈ (tryEach (PstCall.run std) calls w).1, r.isSome) :
    AtEach (StopsEarly std) (PstCall.run std) calls w := by
  induction calls generalizing w with
  | nil => trivial
  | cons call calls ih =>
    have hall := List.forall_mem_cons.1 (show ∀ r ∈ (attempt (call.run std) w).1 ::
      (tryEach (PstCall.run std) calls (attempt (call.run std) w).2).1, r.isSome from h)
    refine ⟨fun e w' hthrows => ?_, ih hall.2⟩
    rw [attempt_eq_none.2 ⟨e, hthrows⟩] at hall
    cases hall.1

/-- Fewer calls than there are indexes make no more folders and messages than there are. -/
theorem Archive.few_afterAll {a : Archive} {calls : List PstCall} {results : List (Option Unit)}
    (hshelves : a.shelves.length + calls.length ≤ 2 ^ 27 - kFirstUserNidIndex)
    (hletters : a.numbered + calls.length ≤ 2 ^ 27 - kFirstUserNidIndex) :
    (a.afterAll calls results).Few := by
  induction calls generalizing a results with
  | nil => exact ⟨hshelves, hletters⟩
  | cons call calls ih =>
    cases results with
    | nil => exact ⟨(Nat.le_add_right _ _).trans hshelves, (Nat.le_add_right _ _).trans hletters⟩
    | cons r results =>
      rw [List.length_cons] at hshelves hletters
      have hone : (a.after call r.isSome).shelves.length ≤ a.shelves.length + 1 ∧
          (a.after call r.isSome).numbered ≤ a.numbered + 1 := by
        cases call with
        | createFolder parent name =>
          cases hr : r.isSome with
          | true => exact ⟨(List.length_append ..).le, Nat.le_succ _⟩
          | false => exact ⟨Nat.le_succ _, Nat.le_succ _⟩
        | addMessage folder m =>
          cases hr : r.isSome with
          | true => exact ⟨Nat.le_succ _, le_rfl⟩
          | false =>
            unfold after
            dsimp only
            split
            · exact ⟨Nat.le_succ _, le_rfl⟩
            · exact ⟨Nat.le_succ _, Nat.le_succ _⟩
      show ((a.after call r.isSome).afterAll calls results).Few
      exact ih (by omega) (by omega)

/-! ## A run -/

/-- A new folder, and a message for it. -/
def someCalls : List PstCall :=
  [.createFolder (folderNid 1) (str "Inbox"), .addMessage (folderNid 8) note]

/-- What is in the store then. -/
def someArchive : Archive := Archive.start.afterAll someCalls [some (), some ()]

set_option maxRecDepth 100000 in
theorem someCalls_return :
    (attempt create (blank someKey (fun _ => true) fun _ => 0)).1 = some () ∧
    (tryEach (PstCall.run StdSort.insertion) someCalls
      (attempt create (blank someKey (fun _ => true) fun _ => 0)).2).1 = [some (), some ()] ∧
    (tryEach (PstCall.run StdSort.insertion) someCalls
      (attempt create (blank someKey (fun _ => true) fun _ => 0)).2).2.ndb.good = true := by
  decide +kernel

/-- Folders are not taken away. -/
theorem Archive.shelves_le_afterAll (a : Archive) (calls : List PstCall)
    (results : List (Option Unit)) :
    a.shelves.length ≤ (a.afterAll calls results).shelves.length := by
  induction calls generalizing a results with
  | nil => exact le_rfl
  | cons call calls ih =>
    cases results with
    | nil => exact le_rfl
    | cons r results =>
      refine (Archive.after_le a call r.isSome).1.trans ?_
      exact ih (a.after call r.isSome) results

section

variable {std : StdSort} {key : RecordKey} {fate : Nat → Bool} {clock : Nat → Int}
  {calls : List PstCall} {results : List (Option Unit)} {f : File}

/-! ## Messages -/

/-- Every message that was stored has a node below its folder, and the node reads as the message,
with its recipients, its attachments, and the messages in them, to any depth. -/
theorem messages_read (hrun : runStore std key fate clock calls = some (results, f))
    (hstops : AllStopEarly std key fate clock calls)
    (hfew : (Archive.start.afterAll calls results).Few) {l : Letter}
    (hl : l ∈ (Archive.start.afterAll calls results).letters) : ∃ e n,
      fileNode f l.nid = some e ∧ e.parent = l.folder ∧
      readNode (fileStore f) e.data e.sub = some n ∧
      MessageReads (fileStore f) key l.nid false n l.message := by
  obtain ⟨-, seen, hcontains⟩ := runStore_contains hrun hstops hfew
  obtain ⟨e, hnode, hparent, n, hread, hmessage⟩ := hcontains.present (letterPlan key l)
    (List.mem_append_left _ (List.mem_map_of_mem hl))
  exact ⟨e, n, hnode, hparent, hread, hmessage⟩

/-- The contents table of a folder lists the messages that were added to it, in their order. -/
theorem contents_read (hrun : runStore std key fate clock calls = some (results, f))
    (hstops : AllStopEarly std key fate clock calls)
    (hfew : (Archive.start.afterAll calls results).Few) {s : Shelf}
    (hs : s ∈ (Archive.start.afterAll calls results).shelves) : ∃ e t,
      fileNode f (makeNid kNidTypeContentsTable (nidIndex s.nid)) = some e ∧ e.parent = s.nid ∧
      readTable (fileStore f) e.data e.sub = some t ∧
      t.HasRows contentsColumns
        (((Archive.start.afterAll calls results).inside s.nid).map fun l =>
          contentsRow l.nid l.message) := by
  obtain ⟨-, seen, hcontains⟩ := runStore_contains hrun hstops hfew
  obtain ⟨e, hnode, hparent, t, hread, hrows⟩ := hcontains.present
    (.table (makeNid kNidTypeContentsTable (nidIndex s.nid)) s.nid contentsColumns
      ((Archive.start.afterAll calls results).rows s.nid))
    (List.mem_append_right _ (List.mem_append_left _ (List.mem_flatMap.2 ⟨s, hs, by
      simp [Archive.folderPlans]⟩)))
  exact ⟨e, t, hnode, hparent, hread, hrows⟩

/-! ## Folders -/

/-- A folder has a node below its parent with its name and counts, and the hierarchy table of the
folder lists the folders right below it, in the order they were made. -/
theorem folders_read (hrun : runStore std key fate clock calls = some (results, f))
    (hstops : AllStopEarly std key fate clock calls)
    (hfew : (Archive.start.afterAll calls results).Few) {s : Shelf}
    (hs : s ∈ (Archive.start.afterAll calls results).shelves) :
    (∃ e n, fileNode f s.nid = some e ∧ e.parent = s.parent ∧
      readNode (fileStore f) e.data e.sub = some n ∧
      ContextReads (fileStore f) n
        (always (folderSetters key ((Archive.start.afterAll calls results).folder s))) (2 ^ 16)) ∧
    ∃ e t, fileNode f (makeNid kNidTypeHierarchyTable (nidIndex s.nid)) = some e ∧
      e.parent = s.nid ∧ readTable (fileStore f) e.data e.sub = some t ∧
      t.HasRows hierarchyColumns
        (((Archive.start.afterAll calls results).children s.nid).map fun c =>
          hierarchyRow ((Archive.start.afterAll calls results).folder c)) := by
  obtain ⟨-, seen, hcontains⟩ := runStore_contains hrun hstops hfew
  have hplan {p : NodePlan} (hp : p ∈ (Archive.start.afterAll calls results).folderPlans key s) :
      p.In f := hcontains.present p
    (List.mem_append_right _ (List.mem_append_left _ (List.mem_flatMap.2 ⟨s, hs, hp⟩)))
  constructor
  · obtain ⟨e, hnode, hparent, n, hread, hcontext⟩ := hplan (p := .context s.nid s.parent
      (always (folderSetters key ((Archive.start.afterAll calls results).folder s))))
      List.mem_cons_self
    exact ⟨e, n, hnode, hparent, hread, hcontext⟩
  · obtain ⟨e, hnode, hparent, t, hread, hrows⟩ := hplan
      (p := .table (makeNid kNidTypeHierarchyTable (nidIndex s.nid)) s.nid hierarchyColumns
        ((Archive.start.afterAll calls results).hierarchy s.nid))
      (List.mem_cons_of_mem _ List.mem_cons_self)
    exact ⟨e, t, hnode, hparent, hread, hrows⟩

/-- The parent of a node in a file. -/
def fileParent (f : File) (nid : Nat) : Nat := ((fileNode f nid).map NbtEntry.parent).getD 0

theorem fileParent_folder {a : Archive} {seen : List Bytes}
    (h : Contains (archivePlans key a seen) f) {s : Shelf} (hs : s ∈ a.shelves) :
    fileParent f s.nid = s.parent := by
  obtain ⟨e, hnode, hparent, -⟩ := h.present
    (.context s.nid s.parent (always (folderSetters key (a.folder s))))
    (List.mem_append_right _ (List.mem_append_left _ (List.mem_flatMap.2 ⟨s, hs,
      List.mem_cons_self⟩)))
  rw [fileParent, show fileNode f s.nid = some e from hnode]
  exact hparent

theorem iterate_fileParent {a : Archive} (hok : a.Ok) (hfew : a.Few) {seen : List Bytes}
    (h : Contains (archivePlans key a seen) f) (k : Nat) {nid : Nat} (hnid : nid ∈ a.nids) :
    (fileParent f)^[k] nid = a.parentOf^[k] nid := by
  induction k generalizing nid with
  | zero => rw [Function.iterate_zero, Function.iterate_zero]
  | succ k ih =>
    obtain ⟨s, hs, rfl⟩ := List.mem_map.1 hnid
    have hparent : a.parentOf s.nid = s.parent := by
      rw [Archive.parentOf, hok.find? hfew hs, Option.map_some, Option.getD_some]
    rw [Function.iterate_succ_apply, Function.iterate_succ_apply, fileParent_folder h hs, hparent]
    exact ih (hok.parents hs)

/-- A folder but the root is below one folder, once. -/
theorem Archive.Ok.count_children {a : Archive} (hok : a.Ok) (hfew : a.Few) {s : Shelf}
    (hs : s ∈ a.shelves.drop 1) (nid : Nat) :
    ((a.children nid).map Shelf.nid).count s.nid = if s.parent = nid then 1 else 0 := by
  have hnodup : ((a.children nid).map Shelf.nid).Nodup :=
    (hok.nodup hfew).sublist ((List.filter_sublist.trans (List.drop_sublist _ _)).map _)
  split
  · rename_i hparent
    refine List.count_eq_one_of_mem hnodup (List.mem_map_of_mem (List.mem_filter.2 ⟨hs, ?_⟩))
    exact decide_eq_true hparent
  · rename_i hparent
    refine List.count_eq_zero.2 fun hmem => hparent ?_
    obtain ⟨c, hc, heq⟩ := List.mem_map.1 hmem
    obtain ⟨hc, hcparent⟩ := List.mem_filter.1 hc
    have hfind := hok.find? hfew (List.mem_of_mem_drop hc)
    rw [heq, hok.find? hfew (List.mem_of_mem_drop hs)] at hfind
    cases hfind
    exact of_decide_eq_true hcparent

/-- The folders of the file are a tree: the root is its own parent, from every folder the parents
lead to the root, and a folder is listed below its parent and nowhere else. -/
theorem folder_tree (hrun : runStore std key fate clock calls = some (results, f))
    (hstops : AllStopEarly std key fate clock calls)
    (hfew : (Archive.start.afterAll calls results).Few) :
    fileParent f kNidRootFolder = kNidRootFolder ∧
    (∀ s ∈ (Archive.start.afterAll calls results).shelves,
      fileParent f s.nid ∈ (Archive.start.afterAll calls results).nids ∧
      ∃ k, (fileParent f)^[k] s.nid = kNidRootFolder) ∧
    ∀ s ∈ (Archive.start.afterAll calls results).shelves.drop 1, ∀ nid,
      (((Archive.start.afterAll calls results).children nid).map Shelf.nid).count s.nid =
        if fileParent f s.nid = nid then 1 else 0 := by
  obtain ⟨hok, seen, hcontains⟩ := runStore_contains hrun hstops hfew
  revert hok hcontains hfew
  generalize Archive.start.afterAll calls results = a
  intro hfew hok hcontains
  have hparent {s : Shelf} (hs : s ∈ a.shelves) : fileParent f s.nid = s.parent :=
    fileParent_folder hcontains hs
  refine ⟨?_, fun s hs => ⟨?_, ?_⟩, fun s hs nid => ?_⟩
  · obtain ⟨name, hroot⟩ := hok.root
    have hmem : (⟨kNidRootFolder, kNidRootFolder, name⟩ : Shelf) ∈ a.shelves :=
      List.mem_of_mem_head? (Option.mem_def.2 hroot)
    obtain ⟨s, hs, hnid, hself⟩ : ∃ s ∈ a.shelves, s.nid = kNidRootFolder ∧
      s.parent = kNidRootFolder := ⟨_, hmem, rfl, rfl⟩
    have hown := hparent hs
    rwa [hnid, hself] at hown
  · rw [hparent hs]
    exact hok.parents hs
  · obtain ⟨k, hk⟩ := hok.rooted hfew hs
    exact ⟨k, (iterate_fileParent hok hfew hcontains k (List.mem_map_of_mem hs)).trans hk⟩
  · rw [hparent (List.mem_of_mem_drop hs)]
    exact hok.count_children hfew hs nid

/-! ## Nodes -/

/-- The nodes of the file, each with a NID of its own: one for every message, four for every
folder, and those that every store has. -/
theorem nodes_exact (hrun : runStore std key fate clock calls = some (results, f))
    (hstops : AllStopEarly std key fate clock calls)
    (hfew : (Archive.start.afterAll calls results).Few) :
    (archiveNids (Archive.start.afterAll calls results)).Nodup ∧
    ∀ nid, (fileNode f nid).isSome ↔ nid ∈ archiveNids (Archive.start.afterAll calls results) := by
  obtain ⟨hok, seen, hcontains⟩ := runStore_contains hrun hstops hfew
  refine ⟨archiveNids_nodup hok hfew, fun nid => ⟨fun hsome => ?_, fun hmem => ?_⟩⟩
  · by_contra hnot
    rw [← archivePlans_nids key _ seen] at hnot
    rw [hcontains.absent nid hnot] at hsome
    cases hsome
  · rw [← archivePlans_nids key _ seen] at hmem
    obtain ⟨p, hp, rfl⟩ := List.mem_map.1 hmem
    obtain ⟨e, hnode, -⟩ := hcontains.present p hp
    rw [hnode]
    rfl

/-- The message store names eight folders that are there; the map of names lists the keywords and
header names, each once; the templates have their columns, and the one entry they need. -/
theorem furniture_read (hrun : runStore std key fate clock calls = some (results, f))
    (hstops : AllStopEarly std key fate clock calls)
    (hfew : (Archive.start.afterAll calls results).Few) :
    (storePlan key).In f ∧ (∀ i < 8, (fileNode f (folderNid i)).isSome) ∧
    (∃ seen, (namesPlan seen).In f) ∧ ∀ p ∈ reservedPlans (folderNid 1), p.In f := by
  obtain ⟨hok, seen, hcontains⟩ := runStore_contains hrun hstops hfew
  have hlast {p : NodePlan}
      (hp : p ∈ reservedPlans (folderNid 1) ++ [storePlan key, namesPlan seen]) : p.In f :=
    hcontains.present p (List.mem_append_right _ (List.mem_append_right _ hp))
  refine ⟨hlast (List.mem_append_right _ List.mem_cons_self), fun i hi => ?_,
    ⟨seen, hlast (List.mem_append_right _ (List.mem_cons_of_mem _ List.mem_cons_self))⟩,
    fun p hp => hlast (List.mem_append_left _ hp)⟩
  obtain ⟨s, hs, hnid⟩ := List.mem_map.1 (hok.folderNid_mem (i := i)
    (hi.trans_le (Archive.start.shelves_le_afterAll calls results)))
  obtain ⟨e, hnode, -⟩ := hcontains.present
    (.context s.nid s.parent
      (always (folderSetters key ((Archive.start.afterAll calls results).folder s))))
    (List.mem_append_right _ (List.mem_append_left _
      (List.mem_flatMap.2 ⟨s, hs, List.mem_cons_self⟩)))
  rw [← hnid, show fileNode f s.nid = some e from hnode]
  rfl

/-! ## The writer before it finishes -/

/-- The calls of the writer refine those of the archive: after any run, exceptions and all, that
leaves the stream good and the numbers of the archive within a NID, the folders and their counts,
the contents tables and the nodes are those of the archive. -/
theorem writer_holds_archive {w : PstWriter} (hcreate : create (blank key fate clock) = .ok () w)
    (hstops : AtEach (StopsEarly std) (PstCall.run std) calls w)
    (hfew : (Archive.start.afterAll calls (tryEach (PstCall.run std) calls w).1).Few)
    (hgood : (tryEach (PstCall.run std) calls w).2.ndb.good = true) :
    Filed key (Archive.start.afterAll calls (tryEach (PstCall.run std) calls w).1)
      (tryEach (PstCall.run std) calls w).2 :=
  filed_run (fun _ => filed_create hcreate) hstops hfew hgood

theorem writer_holds_archive_someCalls : ∃ w,
    create (blank someKey (fun _ => true) fun _ => 0) = .ok () w ∧
    Filed someKey someArchive (tryEach (PstCall.run StdSort.insertion) someCalls w).2 := by
  obtain ⟨hcreate, hresults, hgood⟩ := someCalls_return
  generalize hrun : attempt create (blank someKey (fun _ => true) fun _ => 0) = r
    at hcreate hresults hgood
  obtain ⟨returned, w⟩ := r
  dsimp only at hcreate hresults hgood
  subst hcreate
  have hstops : AtEach (StopsEarly StdSort.insertion) (PstCall.run StdSort.insertion) someCalls w :=
    atEach_of_returned (by rw [hresults]; decide)
  have hfew : (Archive.start.afterAll someCalls
      (tryEach (PstCall.run StdSort.insertion) someCalls w).1).Few :=
    Archive.few_afterAll (by decide +kernel) (by decide +kernel)
  have hfiled := writer_holds_archive (attempt_eq_some.1 hrun) hstops hfew hgood
  rw [hresults] at hfiled
  exact ⟨w, attempt_eq_some.1 hrun, hfiled⟩

/-- A write that has failed is not forgotten: whichever calls follow, the `finish` that ends the run
throws. -/
theorem failed_stream_never_closes {w : PstWriter}
    (hcreate : create (blank key fate clock) = .ok () w) (k : Nat)
    (hbad : (tryEach (PstCall.run std) (calls.take k) w).2.ndb.good = false) :
    runStore std key fate clock calls = none := by
  rw [Option.eq_none_iff_forall_ne_some]
  rintro ⟨results, f⟩ hrun
  obtain ⟨w', w'', hcreate', -, hfinish, -⟩ := runStore_eq_some hrun
  rw [hcreate] at hcreate'
  cases hcreate'
  have hkept (calls : List PstCall) (w : PstWriter) :
      WriterStaysBad w (tryEach (PstCall.run std) calls w).2 :=
    tryEach_drives (fun call _ => call.run_drives std) w
  have hgood := finish_good hfinish ((hkept calls w).2.trans (filed_create hcreate).unfinished)
  have hlater := (hkept (calls.drop k) (tryEach (PstCall.run std) (calls.take k) w).2).1 hbad
  have hsplit :=
    congrArg Prod.snd (tryEach_append (PstCall.run std) (calls.take k) (calls.drop k) w)
  rw [List.take_append_drop] at hsplit
  rw [hsplit, hlater] at hgood
  cases hgood

set_option maxRecDepth 100000 in
/-- On this stream the constructor succeeds, and no block can be written. -/
theorem someCalls_fail :
    (attempt create (blank someKey (fun k => k < 2) fun _ => 0)).1 = some () ∧
    (tryEach (PstCall.run StdSort.insertion) (someCalls.take 2)
      (attempt create (blank someKey (fun k => k < 2) fun _ => 0)).2).2.ndb.good = false := by
  decide +kernel

theorem failed_stream_never_closes_someCalls :
    runStore StdSort.insertion someKey (fun k => k < 2) (fun _ => 0) someCalls = none := by
  obtain ⟨hcreate, hbad⟩ := someCalls_fail
  generalize hrun : attempt create (blank someKey (fun k => k < 2) fun _ => 0) = r at hcreate hbad
  obtain ⟨returned, w⟩ := r
  dsimp only at hcreate hbad
  subst hcreate
  exact failed_stream_never_closes (attempt_eq_some.1 hrun) 2 hbad

end

end Pst
end Imap2Pst
