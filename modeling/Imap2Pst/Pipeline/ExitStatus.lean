import Imap2Pst.Pipeline.Accounting
import Imap2Pst.Pipeline.Scripted

/-!
# Pipeline.ExitStatus

What `failed_messages == 0`, and with it exit status 0, says about a run. Single messages are all
counted. A folder whose message listing is refused is only logged, and one whose decoded name has
no component is passed over, so neither shows.
-/

namespace Imap2Pst
namespace Pipeline

open CxxStd

variable {C F W : Type}

/-- Every selectable folder of `folders` has been listed, and every message listed is stored. -/
def Migrated (folders : List FolderInfo) (st : RunState C F W) : Prop :=
  st.listings.map (·.1) = folders.filter (·.selectable) ∧ st.stored = st.positions

/-- Books without a failure show every position stored. -/
theorem Balanced.all_stored {st : RunState C F W} (h : Balanced st)
    (hzero : st.stats.failedMessages = 0) : st.stored = st.positions := by
  obtain ⟨fates, hmap, hbooks⟩ := h
  have hall : ∀ f ∈ fates, f.2 = true := by
    have hnone := hbooks.failedMessages.symm.trans hzero
    simpa [List.countP_eq_zero] using hnone
  rw [hbooks.stored, List.filter_eq_self.2 hall, hmap]

/-- A folder whose messages `run` asks for. -/
def opened (folder : FolderInfo) : Bool := folder.selectable && folder.path ≠ []

theorem folderLoop_balanced {sv : Services C F W} {opts : Options} {folders : List FolderInfo}
    {st st' : RunState C F W} (h : folderLoop sv opts folders st = (.returns, st')) :
    Balanced st → Balanced st' := by
  refine folderLoop_rule (R := fun _ st st' => Balanced st → Balanced st') (fun _ h => h) ?_
    folders st st' h
  intro folder rest st mid st' hfolder ih hst
  obtain ⟨-, -, ha⟩ | ⟨he, -⟩ | ⟨-, -, mid', ha, ⟨-, rfl⟩ | ⟨id, metas, hloop⟩⟩ :=
    runFolder_cases hfolder
  · exact ih (hst.same ha)
  · exact absurd rfl he
  · exact ih ((hst.same ha).refuse folder)
  · exact ih ((hst.same ha).listed hloop).1

/-- Each folder that is opened is listed, in its turn, or refused. -/
theorem folderLoop_listings {sv : Services C F W} {opts : Options} {folders : List FolderInfo}
    {st st' : RunState C F W} (h : folderLoop sv opts folders st = (.returns, st')) :
    ∃ (listed : List (FolderInfo × List MessageMeta)) (refused : List FolderInfo),
      st'.listings = st.listings ++ listed ∧ st'.refused = st.refused ++ refused ∧
      (listed.map (·.1)).Sublist (folders.filter opened) ∧
      listed.length + refused.length = (folders.filter opened).length := by
  refine folderLoop_rule (R := fun folders st st' =>
    ∃ (listed : List (FolderInfo × List MessageMeta)) (refused : List FolderInfo),
      st'.listings = st.listings ++ listed ∧ st'.refused = st.refused ++ refused ∧
      (listed.map (·.1)).Sublist (folders.filter opened) ∧
      listed.length + refused.length = (folders.filter opened).length)
    (fun st => ⟨[], [], by simp⟩) ?_ folders st st' h
  rintro folder rest st mid st' hfolder ⟨listed, refused, hl, hr, hsub, hlen⟩
  have copen : folder.selectable → folder.path ≠ [] → opened folder = true := by
    intro hsel hpath
    simp [opened, hsel, hpath]
  obtain ⟨hclosed, -, ha⟩ | ⟨he, -⟩ | ⟨hsel, hpath, mid', ha, ⟨-, rfl⟩ | ⟨id, metas, hloop⟩⟩ :=
    runFolder_cases hfolder
  · have hno : ¬ opened folder = true := by simpa [opened] using hclosed
    rw [List.filter_cons_of_neg hno]
    exact ⟨listed, refused, by rw [hl, ha.listings], by rw [hr, ha.refused], hsub, hlen⟩
  · exact absurd rfl he
  · rw [List.filter_cons_of_pos (copen hsel hpath)]
    refine ⟨listed, folder :: refused, by rw [hl, ha.listings], by simp [hr, ha.refused],
      hsub.cons folder, by simp only [List.length_cons]; omega⟩
  · rw [List.filter_cons_of_pos (copen hsel hpath)]
    obtain ⟨fates, -, hloop⟩ := batchLoop_accounts hloop
    refine ⟨(folder, metas) :: listed, refused, by simp [hl, hloop.listings, ha.listings],
      by rw [hr, hloop.refused, ha.refused], hsub.cons_cons folder,
      by simp only [List.length_cons]; omega⟩

/-- A run that reports no failure has migrated everything exactly when no message listing was
refused and every selectable folder has a name with a component in it. -/
theorem migrated_iff_nothing_refused (sv : Services C F W) (opts : Options) (client client' : C)
    (spool : F) (listed : List FolderInfo) (st : RunState C F W)
    (hlist : sv.client.listFolders client = (.ok listed, client'))
    (hrun : run sv opts client spool = (.returns, some st))
    (hzero : st.stats.failedMessages = 0) :
    Migrated (sv.srt.sort folderLt (selected opts listed)) st ↔
      st.refused = [] ∧ ∀ folder ∈ selected opts listed, folder.selectable → folder.path ≠ [] := by
  obtain ⟨listed', client₁, writer, hlist', -, hmig⟩ := run_eq_some hrun
  obtain ⟨rfl, rfl⟩ : listed' = listed ∧ client₁ = client' := by
    rw [hlist] at hlist'
    simpa [eq_comm] using hlist'
  obtain ⟨mid, hloop, hfinish⟩ := andThen_returns hmig
  have hfin := finishWriter_accounts sv mid
  rw [hfinish] at hfin
  have hstored : st.stored = st.positions :=
    ((folderLoop_balanced hloop (RunState.start_balanced _ _ _)).same hfin).all_stored hzero
  obtain ⟨lists, refused, hl, hr, hsub, hlen⟩ := folderLoop_listings hloop
  obtain rfl : st.listings = lists := by rw [hfin.listings, hl, List.nil_append]
  obtain rfl : st.refused = refused := by rw [hfin.refused, hr, List.nil_append]
  generalize hfolders : sv.srt.sort folderLt (selected opts listed') = folders at *
  have hmem : ∀ folder, folder ∈ folders ↔ folder ∈ selected opts listed' := fun folder => by
    rw [← hfolders, StdSort.mem_sort]
  have hopened : folders.filter opened = (folders.filter (·.selectable)).filter (·.path ≠ []) := by
    rw [List.filter_filter]
    refine List.filter_congr fun folder _ => ?_
    simp [opened, Bool.and_comm]
  have hle : (folders.filter opened).length ≤ (folders.filter (·.selectable)).length := by
    rw [hopened]
    exact List.length_filter_le _ _
  simp only [← hmem]
  constructor
  · rintro ⟨hall, -⟩
    have hcount : st.listings.length = (folders.filter (·.selectable)).length := by
      rw [← hall, List.length_map]
    refine ⟨List.length_eq_zero_iff.1 (by omega), ?_⟩
    intro folder hf hsel
    have hfull := List.length_filter_eq_length_iff.1
      (show ((folders.filter (·.selectable)).filter (·.path ≠ [])).length = _ by
        rw [← hopened]; omega)
    simpa using hfull folder (List.mem_filter.2 ⟨hf, hsel⟩)
  · rintro ⟨hnone, hpath⟩
    refine ⟨?_, hstored⟩
    have hfull : folders.filter opened = folders.filter (·.selectable) := by
      rw [hopened, List.filter_eq_self]
      intro folder hf
      obtain ⟨hf, hsel⟩ := List.mem_filter.1 hf
      simpa using hpath folder hf hsel
    rw [← hfull]
    refine hsub.eq_of_length ?_
    rw [List.length_map]
    simp only [hnone, List.length_nil] at hlen
    omega

/-! ## A folder that goes missing -/

def inbox : FolderInfo := { fullName := str "INBOX", rawName := str "INBOX" }

def listInbox : Bytes := str "* LIST () \"/\" \"INBOX\"\r\n"

theorem parse_listInbox : Imap.parseListResponse listInbox = .ok [inbox] := by decide +kernel

theorem inbox_path : inbox.path = [str "INBOX"] := by decide +kernel

theorem listFolders_inbox (answers : Script) :
    desk.client.listFolders (.ok listInbox :: answers) = (.ok [inbox], answers) := by
  simp only [desk, onto, ImapClient.ops, ImapClient.listFolders, scripted, Script.next,
    ImapClient.request, parse_listInbox]

/-- An account of one folder, up to its message listing. -/
theorem run_inbox (answers : Script) :
    run desk {} (.ok listInbox :: answers) () =
      Prod.map id some (andThen (runListing desk {} inbox 1
        { client := answers, spool := (), writer := { folders := [(0, str "INBOX")] },
          stats := { folders := 1 }, byPath := [(str "INBOX", 1)] }) (finishWriter desk)) := by
  have hsort : desk.srt.sort folderLt (selected {} [inbox]) = [inbox] := rfl
  have hfolder : folderFor desk.writer [] desk.writer.ipmSubtree [str "INBOX"] ({}, []) =
      (.ok 1, { folders := [(0, str "INBOX")] }, [(str "INBOX", 1)]) := rfl
  have hopen : desk.writer.create [] = .ok {} := rfl
  simp only [run, listFolders_inbox, migrate, hsort, folderLoop, runFolder, inbox_path, hopen,
    List.cons_ne_nil, if_false, hfolder, andThen_pure]
  rfl

/-- One folder whose message listing is answered with NO: it is missing from the PST, and the exit
status is 0. -/
theorem lost_inbox_exits_zero :
    ∃ client' st,
      desk.client.listFolders [.ok listInbox, .error "NO Mailbox is busy"] =
        (.ok [inbox], client') ∧
      run desk {} [.ok listInbox, .error "NO Mailbox is busy"] () = (.returns, some st) ∧
      st.stats.failedMessages = 0 ∧
      exitStatus (run desk {} [.ok listInbox, .error "NO Mailbox is busy"] ()) = some 0 ∧
      ¬ Migrated (desk.srt.sort folderLt (selected {} [inbox])) st := by
  have hrun := run_inbox [.error "NO Mailbox is busy"]
  refine ⟨_, _, listFolders_inbox _, hrun, rfl, ?_, ?_⟩
  · rw [hrun]
    rfl
  · rintro ⟨h, -⟩
    cases h

/-- The answers for two messages in one folder: the listing, no batch, and one body after the
other. -/
def twoMails : Script :=
  [.ok listInbox, .ok (str "* 1 FETCH (UID 5 FLAGS ())\r\n* 2 FETCH (UID 6 FLAGS (\\Seen))\r\n"),
    .error "NO", .ok (str "Hi"), .ok (str "Ho")]

theorem run_twoMails :
    (run desk {} twoMails ()).1 = .returns ∧
      (run desk {} twoMails ()).2.map (fun st =>
        (st.stats.failedMessages, st.refused.length, st.stored.map fun p => p.2.uid)) =
          some (0, 0, [5, 6]) := by
  decide +kernel

/-- Both messages are in the PST. -/
theorem two_mails_migrated :
    ∃ st, run desk {} twoMails () = (.returns, some st) ∧
      st.stored.map (fun p => p.2.uid) = [5, 6] ∧
      Migrated (desk.srt.sort folderLt (selected {} [inbox])) st := by
  obtain ⟨hreturns, hsome⟩ := run_twoMails
  obtain ⟨st, hst, hcounts⟩ := Option.map_eq_some_iff.1 hsome
  obtain ⟨hzero, hrefused, huids⟩ : st.stats.failedMessages = 0 ∧ st.refused.length = 0 ∧
      st.stored.map (fun p => p.2.uid) = [5, 6] := by simpa using hcounts
  have hrun : run desk {} twoMails () = (.returns, some st) := Prod.ext hreturns hst
  refine ⟨st, hrun, huids, (migrated_iff_nothing_refused desk {} _ _ () _ _
    (listFolders_inbox _) hrun hzero).2 ⟨List.eq_nil_of_length_eq_zero hrefused, ?_⟩⟩
  intro folder hfolder _
  rw [List.mem_singleton.1 hfolder, inbox_path]
  exact List.cons_ne_nil _ _

end Pipeline
end Imap2Pst
