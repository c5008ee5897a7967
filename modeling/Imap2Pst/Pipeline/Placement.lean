import Imap2Pst.Pipeline.Accounting
import Imap2Pst.Pipeline.FolderMap
import Imap2Pst.Pipeline.Scripted

/-!
# Pipeline.Placement

Where `run` puts the mailboxes of the server.

* `PutIn`    — the run came to a folder, and `folder_for` gave an id for it.
* `Faithful` — every mailbox has the PST folder its path says.
* `places_faithfully_iff` — every run is faithful exactly when the paths are separable.
-/

namespace Imap2Pst
namespace Pipeline

open CxxStd Pst Pst.FolderTable

variable {C F W R : Type}

/-! ## Runs -/

/-- The folders are the same ones, apart from the messages they count. -/
structure SameFolders (t t' : FolderTable) : Prop where
  next : t'.nextFolderIndex = t.nextFolderIndex
  nids : t'.folders.map Folder.nid = t.folders.map Folder.nid
  parents : t'.folders.map Folder.parent = t.folders.map Folder.parent
  grows : Extends t t'

theorem SameFolders.refl (t : FolderTable) : SameFolders t t := ⟨rfl, rfl, rfl, .refl t⟩

theorem SameFolders.trans {t mid t' : FolderTable} (h : SameFolders t mid)
    (h' : SameFolders mid t') : SameFolders t t' :=
  ⟨h'.next.trans h.next, h'.nids.trans h.nids, h'.parents.trans h.parents,
    h.grows.trans h'.grows⟩

theorem SameFolders.count (t : FolderTable) (id : Nat) (seen : Bool) :
    SameFolders t (t.countMessage id seen) :=
  ⟨rfl, updateFirst_map (.count seen) (fun _ => rfl) _ _,
    updateFirst_map (.count seen) (fun _ => rfl) _ _,
    countMessage_extends t id seen⟩

theorem Mapped.same {folders : List FolderInfo} {t t' : FolderTable}
    {byPath : List (Bytes × FolderId)} {made : List (List Bytes)}
    (h : Mapped folders t byPath made) (hsame : SameFolders t t') :
    Mapped folders t' byPath made where
  grown := ⟨hsame.next.trans h.grown.next, hsame.nids.trans h.grown.nids,
    hsame.parents ▸ h.grown.parents⟩
  known := h.known
  nodup := h.nodup
  inside := h.inside
  below hs i p hi := (h.below hs i p hi).extends hsame.grows

/-- From `st` to `st'` messages went to one folder, and no folder was made. -/
structure Fills (folder : FolderInfo) (id : FolderId) (st st' : RunState C F (FolderTable × R)) :
    Prop where
  byPath : st'.byPath = st.byPath
  same : SameFolders st.writer.1 st'.writer.1
  attempts : ∀ a ∈ st'.attempts, a ∈ st.attempts ∨ a.folder = folder ∧ a.id = id

theorem Fills.refl (folder : FolderInfo) (id : FolderId) (st : RunState C F (FolderTable × R)) :
    Fills folder id st st :=
  ⟨rfl, .refl _, fun _ ha => .inl ha⟩

theorem Fills.trans {folder : FolderInfo} {id : FolderId}
    {st mid st' : RunState C F (FolderTable × R)} (h : Fills folder id st mid)
    (h' : Fills folder id mid st') : Fills folder id st st' where
  byPath := h'.byPath.trans h.byPath
  same := h.same.trans h'.same
  attempts a ha := (h'.attempts a ha).elim (h.attempts a) .inr

theorem Fills.fetched {folder : FolderInfo} {id : FolderId}
    {st st' : RunState C F (FolderTable × R)} (h : st.Fetched st') : Fills folder id st st' := by
  obtain ⟨_, _, _, rfl⟩ := h
  exact ⟨rfl, .refl _, fun _ ha => .inl ha⟩

/-- In `st'` the map is right, and knows what it knew in `st`. -/
def Onward (folders : List FolderInfo) (st st' : RunState C F (FolderTable × R)) : Prop :=
  (∃ made, Mapped folders st'.writer.1 st'.byPath made) ∧ Keeps st.byPath st'.byPath

theorem addMessage_same (rest : RestOps R) (w : FolderTable × R) (id : FolderId) (msg : Message) :
    SameFolders w.1 ((writerOps rest).addMessage w id msg).2.1 := by
  simp only [writerOps]
  split
  · exact .refl _
  · split
    · exact .refl _
    · exact .count _ _ _

section

variable {sv : Services C F (FolderTable × R)} {rest : RestOps R} (hw : sv.writer = writerOps rest)

include hw

theorem handOver_fills (folder : FolderInfo) (id : FolderId) (info : MessageMeta)
    (raw : RawMessage) (st : RunState C F (FolderTable × R)) :
    Fills folder id st (handOver sv folder id info raw st) := by
  have attempt (stored : Bool) (a : Attempt)
      (ha : a ∈ st.attempts ++ [⟨folder, id, info, raw, stored⟩]) :
      a ∈ st.attempts ∨ a.folder = folder ∧ a.id = id := by
    rcases List.mem_append.1 ha with ha | ha
    · exact .inl ha
    · rw [List.mem_singleton.1 ha]
      exact .inr ⟨rfl, rfl⟩
  simp only [handOver, hw]
  split
  · exact ⟨rfl, .refl _, attempt false⟩
  · rename_i msg _
    have hsame := addMessage_same rest st.writer id (withListedSize msg info)
    split
    · rename_i hadd
      rw [hadd] at hsame
      exact ⟨rfl, hsame, attempt false⟩
    · rename_i hadd
      rw [hadd] at hsame
      exact ⟨rfl, hsame, attempt true⟩

theorem writePass_fills (folder : FolderInfo) (id : FolderId) :
    ∀ (slots : List (MessageMeta × RawMessage × Bool)) (st : RunState C F (FolderTable × R)),
      Fills folder id st (writePass sv folder id slots st) := by
  intro slots
  induction slots with
  | nil => exact fun st => .refl _ _ st
  | cons slot slots ih =>
    intro st
    obtain ⟨info, raw, accounted⟩ := slot
    simp only [writePass]
    split
    · refine .trans ?_ (ih _)
      split
      · exact .refl _ _ st
      · exact .fetched ⟨_, _, _, rfl⟩
    · exact (handOver_fills hw folder id info raw st).trans (ih _)

theorem runBatch_fills (opts : Options) (folder : FolderInfo) (id : FolderId)
    (batch : List MessageMeta) (st : RunState C F (FolderTable × R)) :
    Fills folder id st (runBatch sv opts folder id batch st).2 := by
  obtain ⟨mid, hmid, ⟨e, -, hstop⟩ | ⟨slots, hdone⟩⟩ := runBatch_cases sv opts folder id batch st
  · rw [hstop]
    exact .fetched hmid
  · rw [hdone]
    exact (Fills.fetched hmid).trans (writePass_fills hw folder id slots mid)

theorem runListing_fills (opts : Options) (folder : FolderInfo) (id : FolderId)
    (st : RunState C F (FolderTable × R)) :
    Fills folder id st (runListing sv opts folder id st).2 := by
  generalize hr : runListing sv opts folder id st = r
  obtain ⟨e, st'⟩ := r
  obtain ⟨client, ⟨-, rfl⟩ | ⟨-, rfl⟩ | ⟨metas, hloop⟩⟩ := runListing_cases hr
  · exact ⟨rfl, .refl _, fun _ ha => .inl ha⟩
  · exact ⟨rfl, .refl _, fun _ ha => .inl ha⟩
  · have hfill := batchLoop_relates (R := Fills folder id)
      (.refl folder id) .trans (runBatch_fills hw opts folder id) metas.length metas
      { st with client, listings := st.listings ++ [(folder, metas)] }
    rw [hloop] at hfill
    exact ⟨hfill.byPath, hfill.same, hfill.attempts⟩

/-- A folder with a name is walked to, and filled. -/
theorem runFolder_walks {folders : List FolderInfo} (opts : Options) {folder : FolderInfo}
    (hmem : folder ∈ folders) (hne : folder.path ≠ []) {st : RunState C F (FolderTable × R)}
    {made : List (List Bytes)} (h : Mapped folders st.writer.1 st.byPath made) :
    ∃ id mid, folderFor sv.writer [] sv.writer.ipmSubtree folder.path (st.writer, st.byPath) =
        (.ok id, mid.writer, mid.byPath) ∧
      Walked folders [] folder.path Pst.FolderTable.ipmSubtree id mid.writer.1 mid.byPath ∧
      Keeps st.byPath mid.byPath ∧ mid.attempts = st.attempts ∧
      runFolder sv opts folder st =
        if folder.selectable then runListing sv opts folder id mid else (.returns, mid) := by
  obtain ⟨id, t', r', byPath', hrun, hwalked, hkeeps⟩ := folderFor_walks rest folders folder.path []
    Pst.FolderTable.ipmSubtree st.writer.1 st.writer.2 st.byPath made h (.inl rfl)
    (fun p hp hp0 => mem_levels.2 ⟨folder, hmem, hp, hp0⟩) fun _ => .top
  have hfor : folderFor sv.writer [] sv.writer.ipmSubtree folder.path (st.writer, st.byPath) =
      (.ok id, (t', r'), byPath') := by
    rw [hw]
    exact hrun
  refine ⟨id, { st with
      writer := (t', r')
      byPath := byPath'
      stats.folders := st.stats.folders + 1 }, hfor, hwalked, hkeeps, rfl, ?_⟩
  simp only [runFolder, hne, if_false, hfor]

theorem runFolder_mapped {folders : List FolderInfo} (opts : Options) {folder : FolderInfo}
    (hmem : folder ∈ folders) {st : RunState C F (FolderTable × R)}
    {made : List (List Bytes)} (h : Mapped folders st.writer.1 st.byPath made) :
    Onward folders st (runFolder sv opts folder st).2 := by
  by_cases hne : folder.path = []
  · simp only [runFolder, hne, if_true]
    exact ⟨⟨made, h⟩, .refl _⟩
  · obtain ⟨id, mid, -, hwalked, hkeeps, -, hrun⟩ := runFolder_walks hw opts hmem hne h
    obtain ⟨made', hmid⟩ := hwalked.mapped
    rw [hrun]
    split
    · have hfill := runListing_fills hw opts folder id mid
      refine ⟨⟨made', ?_⟩, ?_⟩
      · rw [hfill.byPath]
        exact hmid.same hfill.same
      · rw [hfill.byPath]
        exact hkeeps
    · exact ⟨⟨made', hmid⟩, hkeeps⟩

theorem folderLoop_mapped {folders : List FolderInfo} (opts : Options) :
    ∀ (todo : List FolderInfo) (st : RunState C F (FolderTable × R)) (made : List (List Bytes)),
      (∀ f ∈ todo, f ∈ folders) → Mapped folders st.writer.1 st.byPath made →
      Onward folders st (folderLoop sv opts todo st).2 := by
  intro todo
  induction todo with
  | nil => exact fun st made _ h => ⟨⟨made, h⟩, .refl _⟩
  | cons f todo ih =>
    intro st made hmem h
    have hstep := runFolder_mapped hw opts (hmem f List.mem_cons_self) h
    refine andThen_invariant hstep ?_
    rintro mid ⟨⟨made', hmade'⟩, hkeeps⟩
    obtain ⟨hdone, hkeeps'⟩ := ih mid made' (fun g hg => hmem g (List.mem_cons_of_mem _ hg)) hmade'
    exact ⟨hdone, hkeeps.trans hkeeps'⟩

end

theorem folderLoop_append (sv : Services C F W) (opts : Options) :
    ∀ (before after : List FolderInfo) (st : RunState C F W),
      folderLoop sv opts (before ++ after) st =
        andThen (folderLoop sv opts before st) (folderLoop sv opts after) := by
  intro before after
  induction before with
  | nil => exact fun _ => rfl
  | cons f before ih =>
    intro st
    simp only [List.cons_append, folderLoop]
    generalize runFolder sv opts f st = r
    obtain ⟨e, mid⟩ := r
    cases e with
    | returns => exact ih mid
    | throws what => rfl
    | hangs => rfl

/-- The run over `folders` came to `f`, and `folder_for` gave `id` for it. -/
def PutIn (sv : Services C F W) (opts : Options) (start : RunState C F W)
    (folders : List FolderInfo) (f : FolderInfo) (id : FolderId) : Prop :=
  ∃ before after st s, folders = before ++ f :: after ∧
    folderLoop sv opts before start = (.returns, st) ∧ f.path ≠ [] ∧
    folderFor sv.writer [] sv.writer.ipmSubtree f.path (st.writer, st.byPath) = (.ok id, s)

theorem PutIn.cons {sv : Services C F W} {opts : Options} {start mid : RunState C F W}
    {folders : List FolderInfo} {f g : FolderInfo} {id : FolderId}
    (hf : runFolder sv opts f start = (.returns, mid)) (h : PutIn sv opts mid folders g id) :
    PutIn sv opts start (f :: folders) g id := by
  obtain ⟨before, after, st, s, rfl, hloop, hne, hfor⟩ := h
  refine ⟨f :: before, after, st, s, rfl, ?_, hne, hfor⟩
  simp only [folderLoop, hf, andThen]
  exact hloop

section

variable {sv : Services C F (FolderTable × R)} {rest : RestOps R} (hw : sv.writer = writerOps rest)

include hw

/-- Where a folder was put, `by_path` says at the end. -/
theorem PutIn.lookup {opts : Options} {start : RunState C F (FolderTable × R)}
    {folders : List FolderInfo} {f : FolderInfo} {id : FolderId}
    (h : PutIn sv opts start folders f id) {made : List (List Bytes)}
    (hstart : Mapped folders start.writer.1 start.byPath made) :
    (folderLoop sv opts folders start).2.byPath.lookup (pathKey f.path) = some id := by
  obtain ⟨before, after, st, s, hsplit, hloop, hne, hfor⟩ := h
  have hmem : ∀ g ∈ before ++ f :: after, g ∈ folders := fun g hg => hsplit ▸ hg
  obtain ⟨⟨made', hst⟩, -⟩ := folderLoop_mapped hw opts before start made
    (fun g hg => hmem g (List.mem_append_left _ hg)) hstart
  rw [hloop] at hst
  obtain ⟨id', mid, hfor', hwalked, -, -, hrun⟩ :=
    runFolder_walks hw opts (hmem f (by simp)) hne hst
  rw [hfor] at hfor'
  obtain ⟨rfl, rfl⟩ : id = id' ∧ s = (mid.writer, mid.byPath) := by
    simpa using hfor'
  have hkeeps : Keeps mid.byPath (runFolder sv opts f st).2.byPath := by
    rw [hrun]
    split
    · rw [(runListing_fills hw opts f id mid).byPath]
      exact .refl _
    · exact .refl _
  have hend : Keeps mid.byPath (folderLoop sv opts folders start).2.byPath := by
    obtain ⟨hmapped, -⟩ := runFolder_mapped hw opts (hmem f (by simp)) hst
    rw [hsplit, folderLoop_append, hloop]
    simp only [andThen, folderLoop]
    refine (andThen_invariant (P := Onward folders mid) ⟨hmapped, hkeeps⟩ ?_).2
    rintro s ⟨⟨made'', hs⟩, hks⟩
    obtain ⟨hdone, hlast⟩ := folderLoop_mapped hw opts after s made''
      (fun g hg => hmem g (by simp [hg])) hs
    exact ⟨hdone, hks.trans hlast⟩
  exact hend _ _ (hwalked.ends hne)

/-- Every message is handed over into the folder its mailbox was put in. -/
theorem folderLoop_handed (opts : Options) {folders : List FolderInfo} :
    ∀ (todo : List FolderInfo) (st : RunState C F (FolderTable × R)) (made : List (List Bytes)),
      (∀ f ∈ todo, f ∈ folders) → Mapped folders st.writer.1 st.byPath made →
      ∀ a ∈ (folderLoop sv opts todo st).2.attempts,
        a ∈ st.attempts ∨ PutIn sv opts st todo a.folder a.id := by
  intro todo
  induction todo with
  | nil => exact fun st _ _ _ a ha => .inl ha
  | cons f todo ih =>
    intro st made hmem h a ha
    have hf := hmem f List.mem_cons_self
    have hfirst : ∀ a ∈ (runFolder sv opts f st).2.attempts,
        a ∈ st.attempts ∨ PutIn sv opts st (f :: todo) a.folder a.id := by
      intro a ha
      by_cases hne : f.path = []
      · simp only [runFolder, hne, if_true] at ha
        exact .inl ha
      · obtain ⟨id, mid, hfor, -, -, hattempts, hrun⟩ := runFolder_walks hw opts hf hne h
        rw [hrun] at ha
        split at ha
        · obtain hold | ⟨hfolder, hid⟩ := (runListing_fills hw opts f id mid).attempts a ha
          · exact .inl (hattempts ▸ hold)
          · rw [hfolder, hid]
            exact .inr ⟨[], todo, st, _, rfl, rfl, hne, hfor⟩
        · exact .inl (hattempts ▸ ha)
    have hnext := (runFolder_mapped hw opts hf h).1
    simp only [folderLoop] at ha
    generalize hr : runFolder sv opts f st = r at ha hfirst hnext
    obtain ⟨e, mid⟩ := r
    cases e with
    | returns =>
      obtain ⟨made', hmid⟩ := hnext
      obtain hold | hput := ih mid made' (fun g hg => hmem g (List.mem_cons_of_mem _ hg)) hmid a ha
      · exact hfirst a hold
      · exact .inr (hput.cons hr)
    | throws what => exact hfirst a ha
    | hangs => exact hfirst a ha

/-- A run over the folders that returns has walked every path. -/
theorem folderLoop_visits (opts : Options) {folders : List FolderInfo}
    {start final : RunState C F (FolderTable × R)} {made : List (List Bytes)}
    (hstart : Mapped folders start.writer.1 start.byPath made)
    (hrun : folderLoop sv opts folders start = (.returns, final)) {f : FolderInfo}
    (hf : f ∈ folders) (hne : f.path ≠ []) :
    (∃ id, PutIn sv opts start folders f id) ∧
      ∀ p, p <+: f.path → p ≠ [] → ∃ id, final.byPath.lookup (pathKey p) = some id := by
  obtain ⟨before, after, hsplit⟩ := List.append_of_mem hf
  have hmem : ∀ g ∈ before ++ f :: after, g ∈ folders := fun g hg => hsplit ▸ hg
  have hloop := hrun
  rw [hsplit, folderLoop_append] at hloop
  obtain ⟨st, hbefore, hloop⟩ := andThen_returns hloop
  obtain ⟨mid, hfolder, hafter⟩ := andThen_returns hloop
  obtain ⟨⟨made', hst⟩, -⟩ := folderLoop_mapped hw opts before start made
    (fun g hg => hmem g (List.mem_append_left _ hg)) hstart
  rw [hbefore] at hst
  obtain ⟨id, walked, hfor, hwalked, -, -, hthen⟩ := runFolder_walks hw opts hf hne hst
  refine ⟨⟨id, before, after, st, _, hsplit, hbefore, hne, hfor⟩, fun p hp hp0 => ?_⟩
  obtain ⟨i, hi⟩ := hwalked.way p hp hp0
  obtain ⟨⟨made'', hmid⟩, -⟩ := runFolder_mapped hw opts hf hst
  have hkeeps := (folderLoop_mapped hw opts after _ made''
    (fun g hg => hmem g (by simp [hg])) hmid).2
  rw [hfolder] at hkeeps
  simp only [hafter] at hkeeps
  have hfill : mid.byPath = walked.byPath := by
    rw [hfolder] at hthen
    split at hthen
    · have := (runListing_fills hw opts f id walked).byPath
      rwa [← hthen] at this
    · cases hthen
      rfl
  exact ⟨i, hkeeps _ _ (hfill ▸ hi)⟩

/-- Finishing changes no folder, and a run that returns came through all of them. -/
theorem migrate_last {opts : Options} {start final : RunState C F (FolderTable × R)}
    {folders : List FolderInfo} {ending : Ending}
    (h : andThen (folderLoop sv opts folders start) (finishWriter sv) = (ending, final)) :
    let last := (folderLoop sv opts folders start).2
    final.writer.1 = last.writer.1 ∧ final.attempts = last.attempts ∧
      (ending = .returns → folderLoop sv opts folders start = (.returns, last)) := by
  generalize folderLoop sv opts folders start = r at h
  obtain ⟨e, last⟩ := r
  cases e with
  | returns =>
    rcases hdone : rest.finish last.writer.2 last.writer.1 with ⟨what | _, r⟩
    · simp only [andThen, finishWriter, hw, writerOps, hdone] at h
      cases h
      exact ⟨rfl, rfl, fun _ => rfl⟩
    · simp only [andThen, finishWriter, hw, writerOps, hdone] at h
      cases h
      exact ⟨rfl, rfl, fun _ => rfl⟩
  | throws what =>
    cases h
    exact ⟨rfl, rfl, fun hret => by cases hret⟩
  | hangs =>
    cases h
    exact ⟨rfl, rfl, fun hret => by cases hret⟩

end

/-! ## Every mailbox where its path says -/

/-- The folders made besides those of `init`. -/
def created (t : FolderTable) : List FolderId := (t.folders.map Folder.nid).drop kBuiltinFolderCount

/-- A run over `folders` that ended in `final`: every mailbox is where its path says. -/
structure Faithful (sv : Services C F (FolderTable × R)) (opts : Options)
    (start : RunState C F (FolderTable × R)) (folders : List FolderInfo) (ending : Ending)
    (final : RunState C F (FolderTable × R)) : Prop where
  placed : ∀ f id, PutIn sv opts start folders f id →
    Below final.writer.1 Pst.FolderTable.ipmSubtree id f.path
  shared : ∀ f g id id', PutIn sv opts start folders f id → PutIn sv opts start folders g id' →
    (id = id' ↔ f.path = g.path)
  handed : ∀ a ∈ final.attempts, PutIn sv opts start folders a.folder a.id
  all : ending = .returns → ∀ f ∈ folders, f.selectable → ∃ id, PutIn sv opts start folders f id
  distinct : (final.writer.1.folders.map Folder.nid).Nodup
  /-- One folder was made for each level that was walked, and below one of those. -/
  once : ∃ made : List (List Bytes), made.Nodup ∧ (∀ p ∈ made, p ∈ levels folders) ∧
    (ending = .returns → ∀ p ∈ levels folders, p ∈ made) ∧
    List.Forall₂ (Below final.writer.1 Pst.FolderTable.ipmSubtree) (created final.writer.1) made
  reused : ∀ f id, PutIn sv opts start folders f id → id ∈ created final.writer.1
  parents : ∀ id ∈ (final.writer.1.folders.map Folder.parent).drop kBuiltinFolderCount,
    id = Pst.FolderTable.ipmSubtree ∨ id ∈ created final.writer.1

/-- Whatever the server holds in the folders it lists, and whatever the writer does besides. -/
def PlacesFaithfully (opts : Options) (listed : List FolderInfo) : Prop :=
  ∀ (C F R : Type) (sv : Services C F (FolderTable × R)) (rest : RestOps R) (client client' : C)
    (spool : F) (writer : FolderTable × R) (ending : Ending)
    (final : RunState C F (FolderTable × R)), sv.writer = writerOps rest →
    sv.client.listFolders client = (.ok listed, client') →
    sv.writer.create opts.outputPath = .ok writer →
    run sv opts client spool = (ending, some final) →
    Faithful sv opts { client := client', spool, writer }
      (sv.srt.sort folderLt (selected opts listed)) ending final

theorem Mapped.created {folders : List FolderInfo} {t : FolderTable}
    {byPath : List (Bytes × FolderId)} {made : List (List Bytes)}
    (h : Mapped folders t byPath made) : created t = (List.range made.length).map createdNid := by
  rw [Pipeline.created, h.grown.nids, init_nids]
  rfl

section

variable {sv : Services C F (FolderTable × R)} {rest : RestOps R} (hw : sv.writer = writerOps rest)

include hw

theorem Separable.faithful {opts : Options} {start final : RunState C F (FolderTable × R)}
    {folders : List FolderInfo} {ending : Ending} (hs : Separable folders)
    (hstart : Mapped folders start.writer.1 start.byPath []) (hnone : start.attempts = [])
    (h : andThen (folderLoop sv opts folders start) (finishWriter sv) = (ending, final)) :
    Faithful sv opts start folders ending final := by
  obtain ⟨hwriter, hattempts, hreturns⟩ := migrate_last hw h
  obtain ⟨⟨made, hlast⟩, -⟩ := folderLoop_mapped hw opts folders start [] (fun _ hf => hf) hstart
  -- what `by_path` knows of a folder decides where it is
  have hput : ∀ f id, PutIn sv opts start folders f id →
      ∃ i, made[i]? = some f.path ∧ id = createdNid i := by
    intro f id hput
    obtain ⟨i, p, hi, hkey, rfl⟩ := (hlast.known _ _).1 (hput.lookup hw hstart)
    obtain ⟨before, after, _, _, hsplit, -, hne, -⟩ := hput
    have hlevel : f.path ∈ levels folders :=
      mem_levels.2 ⟨f, by simp [hsplit], List.prefix_refl _, hne⟩
    rw [← hs.keys p (hlast.inside p (List.mem_of_getElem? hi)) _ hlevel hkey]
    exact ⟨i, hi, rfl⟩
  have hroom := (Mapped.length_le hlast.nodup hlast.inside).trans hs.room
  have hnodup := hlast.grown.nodup_iff.2 hroom
  have hinj : ∀ i j, i < made.length → j < made.length → createdNid i = createdNid j → i = j := by
    intro i j hi hj heq
    rw [hlast.grown.nids] at hnodup
    have hrange := (List.nodup_append.1 hnodup).2.1
    exact List.inj_on_of_nodup_map hrange (List.mem_range.2 hi) (List.mem_range.2 hj) heq
  constructor
  · intro f id hf
    obtain ⟨i, hi, rfl⟩ := hput f id hf
    rw [hwriter]
    exact hlast.below hs i f.path hi
  · intro f g id id' hf hg
    obtain ⟨i, hi, rfl⟩ := hput f id hf
    obtain ⟨j, hj, rfl⟩ := hput g id' hg
    constructor
    · intro heq
      have hij := hinj i j (List.getElem?_eq_some_iff.1 hi).1 (List.getElem?_eq_some_iff.1 hj).1 heq
      rw [← hij, hi] at hj
      exact Option.some.inj hj
    · intro heq
      rw [← heq] at hj
      have hij := (List.getElem?_inj (List.getElem?_eq_some_iff.1 hi).1 hlast.nodup.of_map).1
        (hi.trans hj.symm)
      rw [hij]
  · intro a ha
    rw [hattempts] at ha
    obtain hold | hput := folderLoop_handed hw opts folders start [] (fun _ hf => hf) hstart a ha
    · rw [hnone] at hold
      cases hold
    · exact hput
  · intro hret f hf hsel
    exact (folderLoop_visits hw opts hstart (hreturns hret) hf (hs.named f hf hsel)).1
  · rw [hwriter]
    exact hnodup
  · refine ⟨made, hlast.nodup.of_map, hlast.inside, fun hret p hp => ?_, ?_⟩
    · obtain ⟨f, hf, hpre, hne⟩ := mem_levels.1 hp
      have hpath : f.path ≠ [] := fun h0 => hne (List.prefix_nil.1 (h0 ▸ hpre))
      obtain ⟨id, hid⟩ := (folderLoop_visits hw opts hstart (hreturns hret) hf hpath).2 p hpre hne
      obtain ⟨i, q, hi, hkey, -⟩ := (hlast.known _ _).1 hid
      have hq := List.mem_of_getElem? hi
      rwa [← hs.keys q (hlast.inside q hq) p hp hkey]
    · rw [hwriter, hlast.created, List.forall₂_iff_get]
      refine ⟨by simp, fun i hi hi' => ?_⟩
      have := hlast.below hs i _ (List.getElem?_eq_getElem hi')
      simpa using this
  · intro f id hf
    obtain ⟨i, hi, rfl⟩ := hput f id hf
    rw [hwriter, hlast.created]
    exact List.mem_map_of_mem (List.mem_range.2 (List.getElem?_eq_some_iff.1 hi).1)
  · intro id hid
    rw [hwriter] at hid ⊢
    rw [hlast.created]
    refine (hlast.grown.parents id hid).imp_right ?_
    rintro ⟨i, hi, rfl⟩
    exact List.mem_map_of_mem (List.mem_range.2 hi)

/-- A faithful run that returns has kept all its paths apart. -/
theorem Faithful.separable {opts : Options} {start final : RunState C F (FolderTable × R)}
    {folders : List FolderInfo}
    (hstart : Mapped folders start.writer.1 start.byPath [])
    (h : andThen (folderLoop sv opts folders start) (finishWriter sv) = (.returns, final))
    (hf : Faithful sv opts start folders .returns final) : Separable folders := by
  obtain ⟨hwriter, -, -⟩ := migrate_last hw h
  obtain ⟨⟨made, hlast⟩, -⟩ := folderLoop_mapped hw opts folders start [] (fun _ hf => hf) hstart
  obtain ⟨walked, hnodup, hinside, hall, hmade⟩ := hf.once
  have hlen : walked.length = made.length := by
    rw [← hmade.length_eq, hwriter, hlast.created, List.length_map, List.length_range]
  have hset : walked.toFinset = (levels folders).toFinset := by
    ext p
    rw [List.mem_toFinset, List.mem_toFinset]
    exact ⟨hinside p, hall rfl p⟩
  have hcard : (levels folders).toFinset.card = made.length := by
    rw [← hset, List.toFinset_card_of_nodup hnodup, hlen]
  have hmem : ∀ p ∈ levels folders, p ∈ made := by
    have heq : made.toFinset = (levels folders).toFinset := by
      refine Finset.eq_of_subset_of_card_le ?_ ?_
      · exact fun p hp => List.mem_toFinset.2 (hlast.inside p (List.mem_toFinset.1 hp))
      · rw [hcard, List.toFinset_card_of_nodup hlast.nodup.of_map]
    intro p hp
    rw [← List.mem_toFinset, heq]
    exact List.mem_toFinset.2 hp
  constructor
  · intro p hp q hq hkey
    exact List.inj_on_of_nodup_map hlast.nodup (hmem p hp) (hmem q hq) hkey
  · rw [hcard]
    exact hlast.grown.nodup_iff.1 (hwriter ▸ hf.distinct)
  · intro f hmem hsel
    obtain ⟨id, _, _, _, _, -, -, hne, -⟩ := hf.all rfl f hmem hsel
    exact hne

/-- Where every folder is listed as empty, the run returns. -/
theorem folderLoop_returns (hempty : ∀ c mailbox, sv.client.listMessages c mailbox = (.ok [], c))
    (opts : Options) {folders : List FolderInfo} :
    ∀ (todo : List FolderInfo) (st : RunState C F (FolderTable × R)) (made : List (List Bytes)),
      (∀ f ∈ todo, f ∈ folders) → Mapped folders st.writer.1 st.byPath made →
      (folderLoop sv opts todo st).1 = .returns := by
  intro todo
  induction todo with
  | nil => exact fun _ _ _ _ => rfl
  | cons f todo ih =>
    intro st made hmem h
    have hf := hmem f List.mem_cons_self
    have hone : (runFolder sv opts f st).1 = .returns := by
      by_cases hne : f.path = []
      · simp only [runFolder, hne, if_true]
      · obtain ⟨id, mid, -, -, -, -, hrun⟩ := runFolder_walks hw opts hf hne h
        rw [hrun]
        split
        · simp only [runListing, hempty, batchLoop]
        · rfl
    obtain ⟨made', hmade'⟩ := (runFolder_mapped hw opts hf h).1
    simp only [folderLoop]
    generalize runFolder sv opts f st = r at hone hmade'
    obtain ⟨e, mid⟩ := r
    obtain rfl : e = .returns := hone
    exact ih mid made' (fun g hg => hmem g (List.mem_cons_of_mem _ hg)) hmade'

end

/-- A writer whose other operations do nothing. -/
def idle : RestOps Unit where
  create _ := .ok ()
  openContents r _ := r
  addMessage r _ _ := (.ok (), r)
  finish r _ := (.ok (), r)

/-- Services around a client and that writer; a message is its source. -/
def filing (client : ClientOps C) : Services C Unit (FolderTable × Unit) where
  client := client
  spool := noSpool
  writer := writerOps idle
  parse raw := .ok { bodyText := raw.rfc822, imapUid := raw.uid, flags := raw.flags }
  srt := .insertion

/-- Every mailbox has the PST folder its path says, in whatever order the server lists them and
whatever it holds, exactly when the paths to be walked are separable. -/
theorem places_faithfully_iff (opts : Options) (listed : List FolderInfo) :
    PlacesFaithfully opts listed ↔ Separable (selected opts listed) := by
  constructor
  · intro h
    let sv := filing (oneByOne listed (fun _ => []) fun _ _ => none)
    let start : RunState Unit Unit (FolderTable × Unit) :=
      { client := (), spool := (), writer := (init.2, ()) }
    let folders := sv.srt.sort folderLt (selected opts listed)
    have hsv : sv.writer = writerOps idle := rfl
    have hstart : Mapped folders start.writer.1 start.byPath [] := .start folders
    have hloop : (folderLoop sv opts folders start).1 = .returns :=
      folderLoop_returns hsv (fun _ _ => rfl) opts folders start []
        (fun _ hf => hf) hstart
    obtain ⟨final, hmig⟩ : ∃ final, migrate sv opts listed start = (.returns, final) := by
      change ∃ final, andThen (folderLoop sv opts folders start) (finishWriter sv) = _
      generalize folderLoop sv opts folders start = r at hloop
      obtain ⟨e, last⟩ := r
      obtain rfl : e = .returns := hloop
      exact ⟨_, rfl⟩
    have hrun : run sv opts () () = (.returns, some final) := by
      have : run sv opts () () = ((migrate sv opts listed start).1,
        some (migrate sv opts listed start).2) := rfl
      rw [this, hmig]
    have hf := h Unit Unit Unit sv idle () () () start.writer .returns final rfl rfl rfl hrun
    exact (Faithful.separable hsv hstart hmig hf).perm (sv.srt.perm _ _)
  · intro hs C F R sv rest client client' spool writer ending final hw hlist hcreate hrun
    obtain ⟨listed', client'', writer', hlist', hcreate', hmig⟩ := run_eq_some hrun
    rw [hlist] at hlist'
    rw [hcreate] at hcreate'
    cases hlist'
    cases hcreate'
    refine (hs.perm (sv.srt.perm _ _).symm).faithful hw ?_ rfl hmig
    have hinit : writer.1 = init.2 := by
      rw [hw] at hcreate
      simp only [writerOps] at hcreate
      split at hcreate
      · cases hcreate
      · cases hcreate
        rfl
    rw [hinit]
    exact .start _
/-! ## Two mailboxes in one folder -/

/-- What a server answers that has a mailbox `b` below `a`, and one whose name is `a`, the octet
0x1F and `b`; each holds one message. -/
def sharedKey : Script :=
  [.ok (str "* LIST () \"/\" \"a/b\"\r\n* LIST () \"/\" \"a&AB8-b\"\r\n"),
    .ok (str "* 1 FETCH (UID 1)\r\n"), .error "NO", .ok (str "Hi"),
    .ok (str "* 1 FETCH (UID 2)\r\n"), .error "NO", .ok (str "Hi")]

def sharedKeyFolders : List FolderInfo :=
  [{ fullName := str "a/b", rawName := str "a/b" },
    { fullName := [97, 0x1f, 98], rawName := str "a&AB8-b" }]

/-- The messages of both go to the folder that was made for the second. -/
theorem sharedKey_merged :
    let sv := filing (ImapClient.ops .insertion scripted)
    sv.client.listFolders sharedKey = (.ok sharedKeyFolders, sharedKey.tail) ∧
      (run sv {} sharedKey ()).1 = .returns ∧
      (run sv {} sharedKey ()).2.map (fun st => st.attempts.map fun a => (a.folder.path, a.id)) =
        some [([[97, 0x1f, 98]], createdNid 0), ([[97], [98]], createdNid 0)] := by
  decide +kernel

theorem sharedKey_not_faithful : ¬PlacesFaithfully {} sharedKeyFolders := by
  intro h
  obtain ⟨hlist, hret, hattempts⟩ := sharedKey_merged
  generalize hrun : run (filing (ImapClient.ops .insertion scripted)) {} sharedKey () = r
    at hret hattempts
  obtain ⟨ending, final⟩ := r
  obtain rfl : ending = .returns := hret
  obtain ⟨final, rfl, hmap⟩ := Option.map_eq_some_iff.1 hattempts
  have hf := h Script Unit Unit _ idle sharedKey sharedKey.tail () (init.2, ()) .returns final rfl
    hlist rfl hrun
  obtain ⟨a, rest, hcons, ha, hrest⟩ := List.map_eq_cons_iff.1 hmap
  obtain ⟨b, tail, rfl, hb, -⟩ := List.map_eq_cons_iff.1 hrest
  obtain ⟨hpath, hid⟩ := Prod.mk.inj ha
  obtain ⟨hpath', hid'⟩ := Prod.mk.inj hb
  have hsame := (hf.shared a.folder b.folder a.id b.id (hf.handed a (by simp [hcons]))
    (hf.handed b (by simp [hcons]))).1 (hid.trans hid'.symm)
  rw [hpath, hpath'] at hsame
  cases hsame

end Pipeline
end Imap2Pst
