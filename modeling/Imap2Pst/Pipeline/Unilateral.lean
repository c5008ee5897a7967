import Imap2Pst.Pipeline.Batching

/-!
# Pipeline.Unilateral

A server may repeat the UID and the flags of a message it has listed, in a FETCH line of its own,
at any point of a listing. `parseFetchResponse` makes an entry of every line, so the message is
migrated once for each of them.

* `Listing`                — one full line per message, and updates behind them.
* `listing_stored_once_iff` — nothing is stored twice exactly when there are no updates.
-/

namespace Imap2Pst
namespace Pipeline

open CxxStd Imap

variable {C F W : Type}

/-! ## Listings with updates -/

/-- The items of the line that lists a message. -/
def FullLine (l : FetchLine) (uid : UInt32) : Prop :=
  ∃ flags date size, l.items.Perm [.uid uid, .flags flags, .internalDate date, .size size]

/-- The items of a flag update. -/
def UpdateLine (l : FetchLine) (uid : UInt32) : Prop :=
  ∃ flags, l.items.Perm [.uid uid, .flags flags]

/-- A line of a listing, with the UID it tells and whether it is an update. -/
structure Entry where
  line : FetchLine
  uid : UInt32
  update : Bool

/-- One full line per message, and any number of updates of messages already listed. -/
structure Listing (entries : List Entry) : Prop where
  wellFormed : ∀ e ∈ entries, e.line.WellFormed
  bounded : (fetchResponse (entries.map (·.line))).length < 2 ^ 63
  lines : ∀ e ∈ entries, if e.update then UpdateLine e.line e.uid else FullLine e.line e.uid
  once : ((entries.filter (!·.update)).map (·.uid)).Nodup
  listed : ∀ pre e post, entries = pre ++ e :: post → e.update →
    ∃ full ∈ pre, full.update = false ∧ full.uid = e.uid

def response (entries : List Entry) : Bytes := fetchResponse (entries.map (·.line))

/-- A line that tells one UID yields an entry with it. -/
theorem metaFold_uid (uid : UInt32) (items : List FetchItem) :
    ∀ (seen : Bool) (info : MessageMeta), (∀ n, .uid n ∈ items → n = uid) →
      (seen = true ∧ info.uid = uid ∨ .uid uid ∈ items) →
      (metaFold (seen, info) items).1 = true ∧ (metaFold (seen, info) items).2.uid = uid := by
  induction items with
  | nil =>
    intro seen info _ h
    simpa [metaFold] using h
  | cons item rest ih =>
    intro seen info hall h
    have hall' : ∀ n, .uid n ∈ rest → n = uid := fun n hn => hall n (List.mem_cons_of_mem _ hn)
    cases item with
    | uid n =>
      obtain rfl := hall n List.mem_cons_self
      exact ih _ _ hall' (.inl ⟨rfl, rfl⟩)
    | _ =>
      refine ih _ _ hall' ?_
      simpa using h

theorem Listing.items {entries : List Entry} (h : Listing entries) {e : Entry} (he : e ∈ entries) :
    (∀ n, .uid n ∈ e.line.items → n = e.uid) ∧ .uid e.uid ∈ e.line.items ∧
      ∀ item ∈ e.line.items, ∀ o, item ≠ .body o := by
  have hline := h.lines e he
  split at hline
  · obtain ⟨flags, hperm⟩ := hline
    exact ⟨fun n hn => by simpa using hperm.mem_iff.1 hn, hperm.mem_iff.2 (by simp),
      fun item hitem o => by rintro rfl; simpa using hperm.mem_iff.1 hitem⟩
  · obtain ⟨flags, date, size, hperm⟩ := hline
    exact ⟨fun n hn => by simpa using hperm.mem_iff.1 hn, hperm.mem_iff.2 (by simp),
      fun item hitem o => by rintro rfl; simpa using hperm.mem_iff.1 hitem⟩

/-- The listing has an entry for every line, updates included. -/
theorem Listing.parse {entries : List Entry} (h : Listing entries) :
    ∃ metas, parseFetchResponse (response entries) = .ok metas ∧
      metas.map (·.uid) = entries.map (·.uid) := by
  refine ⟨(entries.map (·.line)).filterMap metaOf, ?_, ?_⟩
  · refine parseFetchResponse_respond ?_ ?_ h.bounded
    · intro l hl
      obtain ⟨e, he, rfl⟩ := List.mem_map.1 hl
      exact h.wellFormed e he
    · intro l hl
      obtain ⟨e, he, rfl⟩ := List.mem_map.1 hl
      exact (h.items he).2.2
  · have hsome : ∀ e ∈ entries, (metaOf e.line).map (·.uid) = some e.uid := by
      intro e he
      obtain ⟨hall, hmem, -⟩ := h.items he
      obtain ⟨hseen, huid⟩ := metaFold_uid e.uid e.line.items false {} hall (.inr hmem)
      simp only [metaOf, hseen, if_true, Option.map_some, huid]
    rw [List.filterMap_map, List.map_filterMap]
    simp only [Function.comp_apply]
    rw [List.filterMap_congr hsome]
    exact congrFun List.filterMap_eq_map entries

/-! ## What a folder stores -/

/-- From `st` to `st'` some of the messages were stored, in order. -/
def Stores (folder : FolderInfo) (metas : List MessageMeta) (st st' : RunState C F W) : Prop :=
  ∃ taken, taken.Sublist (metas.map fun m => (folder, m)) ∧ st'.stored = st.stored ++ taken

theorem Stores.stop (folder : FolderInfo) (metas : List MessageMeta) {st st' : RunState C F W}
    (h : st'.attempts = st.attempts) : Stores folder metas st st' :=
  ⟨[], List.nil_sublist _, by simp [RunState.stored, h]⟩

theorem Stores.append {folder : FolderInfo} {metas metas' : List MessageMeta}
    {st mid st' : RunState C F W} (h : Stores folder metas st mid)
    (h' : Stores folder metas' mid st') : Stores folder (metas ++ metas') st st' := by
  obtain ⟨taken, hsub, hst⟩ := h
  obtain ⟨taken', hsub', hst'⟩ := h'
  exact ⟨taken ++ taken', by simpa using hsub.append hsub', by rw [hst', hst, List.append_assoc]⟩

/-- A batch stores some of its messages, however it ends. -/
theorem runBatch_stores (sv : Services C F W) (opts : Options) (folder : FolderInfo)
    (id : FolderId) (batch : List MessageMeta) (st : RunState C F W) :
    Stores folder batch st (runBatch sv opts folder id batch st).2 := by
  generalize hr : runBatch sv opts folder id batch st = r
  obtain ⟨e, st'⟩ := r
  by_cases he : e = .returns
  · subst he
    obtain ⟨fates, hmap, hacc⟩ := runBatch_accounts sv opts folder id batch st st' hr
    refine ⟨(fates.filter (·.2)).map (·.1), ?_, hacc.stored⟩
    rw [← hmap]
    exact List.filter_sublist.map _
  · obtain ⟨mid, ⟨_, _, _, rfl⟩, ⟨e', -, hstop⟩ | ⟨slots, hdone⟩⟩ :=
      runBatch_cases sv opts folder id batch st
    · rw [hstop] at hr
      cases hr
      exact .stop folder batch rfl
    · rw [hdone] at hr
      cases hr
      exact absurd rfl he

theorem batchLoop_stores (sv : Services C F W) (opts : Options) (folder : FolderInfo)
    (id : FolderId) :
    ∀ (fuel : Nat) (metas : List MessageMeta) (st : RunState C F W),
      Stores folder metas st (batchLoop sv opts folder id fuel metas st).2 := by
  intro fuel
  induction fuel with
  | zero =>
    intro metas st
    cases metas <;> exact .stop folder _ rfl
  | succ fuel ih =>
    intro metas st
    cases metas with
    | nil => exact .stop folder _ rfl
    | cons m ms =>
      have hbatch := runBatch_stores sv opts folder id (takeBatch opts [] 0 (m :: ms)) st
      simp only [batchLoop]
      conv in (m :: ms : List MessageMeta) => rw [← takeBatch_append_drop opts (m :: ms)]
      generalize runBatch sv opts folder id (takeBatch opts [] 0 (m :: ms)) st = r at hbatch
      obtain ⟨e, mid⟩ := r
      cases e with
      | returns => exact hbatch.append (ih _ mid)
      | throws what => exact hbatch.append (.stop folder _ rfl)
      | hangs => exact hbatch.append (.stop folder _ rfl)

/-- Over a listing without a repeated UID a folder stores no UID twice. -/
theorem runListing_stores (sv : Services C F W) (opts : Options) (folder : FolderInfo)
    (id : FolderId) (st : RunState C F W) (metas : List MessageMeta) (client : C)
    (hlist : sv.client.listMessages st.client folder.rawName = (.ok metas, client)) :
    Stores folder metas st (runListing sv opts folder id st).2 := by
  have hloop := batchLoop_stores sv opts folder id metas.length metas
    { st with client, listings := st.listings ++ [(folder, metas)] }
  simp only [runListing, hlist]
  exact hloop

/-- Whatever the server does besides, whatever the options and the writer are: the messages that a
folder stores have different UIDs. -/
def StoresOnce (response : Bytes) : Prop :=
  ∀ (T F W : Type) (sv : Services T F W) (srt : StdSort) (tr : TransportOps T) (opts : Options)
    (folder : FolderInfo) (id : FolderId) (st : RunState T F W),
    (tr.command st.client folder.rawName ImapClient.listMessagesCommand).1 = .ok response →
    ∃ taken : List Position,
      (runListing (sv.over srt tr) opts folder id st).2.stored = st.stored ++ taken ∧
        (taken.map (·.2.uid)).Nodup

/-! ## A server that delivers -/

/-- A fold over messages that are all there and all parse stores each of them. -/
theorem foldl_delivered (mail : Mailboxes) (folder : FolderInfo) (id : FolderId)
    (hmail : ∀ uid, ∃ octets, mail folder.rawName uid = some octets ∧ octets ≠ []) :
    ∀ (metas : List MessageMeta) (o : Outcome Shelf),
      ((metas.foldl (migrateOne desk.target mail folder id) o).attempts.filter (·.stored)).map
          (fun a => a.info.uid) =
        (o.attempts.filter (·.stored)).map (fun a => a.info.uid) ++ metas.map (·.uid) := by
  intro metas
  induction metas with
  | nil => simp
  | cons m metas ih =>
    intro o
    obtain ⟨octets, hm, hne⟩ := hmail m.uid
    rw [List.foldl_cons, ih]
    have hone : (migrateOne desk.target mail folder id o m).attempts = o.attempts ++
        [{ folder, id, info := m, raw := ImapClient.rawOf m octets, stored := true }] := by
      have hraw : (ImapClient.rawOf m octets).rfc822 ≠ [] := hne
      simp only [migrateOne, source, hm, Option.map_some, writeOne, hraw, if_false]
      rfl
    rw [hone]
    simp

/-- A server with the same body for every UID. -/
def plenty : Mailboxes := fun _ _ => some [72, 105]

theorem plenty_stores (response : Bytes) (metas : List MessageMeta)
    (hparse : parseFetchResponse response = .ok metas) (folder : FolderInfo) (id : FolderId) :
    let tr := mailServer (.ok []) (fun _ => .ok response) plenty (.error "NO")
    let st : RunState Unit Unit Shelf := { client := (), spool := (), writer := {} }
    (runListing (desk.over .insertion tr) {} folder id st).2.stored.map (·.2.uid) =
      metas.map (·.uid) := by
  intro tr st
  have hserve : Serves tr plenty := mailServer_serves _ _ plenty none (by simp) (by simp)
  have hhonest : Honest (desk.over .insertion tr).client plenty := ops_honest .insertion hserve
  have hlist : (desk.over .insertion tr).client.listMessages st.client folder.rawName =
      (.ok metas, ()) := by
    have hne : ImapClient.listMessagesCommand ≠ ImapClient.listFoldersCommand := by decide
    simp only [Services.over, ImapClient.ops, ImapClient.listMessages, tr, mailServer, hne,
      if_false, if_true, ImapClient.request, hparse]
  have hsize : 1 ≤ ({} : Options).batchSize := by decide
  obtain ⟨st', hret, hout⟩ := batchLoop_outcome hhonest hsize rfl folder id metas
    { st with client := (), listings := st.listings ++ [(folder, metas)] }
  have hattempts := congrArg (fun o : Outcome Shelf =>
    (o.attempts.filter (·.stored)).map fun a => a.info.uid) hout
  have hfold := foldl_delivered plenty folder id (fun _ => ⟨_, rfl, by decide⟩) metas
    (RunState.outcome { st with client := (), listings := st.listings ++ [(folder, metas)] })
  simp only [runListing, hlist, hret]
  refine Eq.trans ?_ (hattempts.trans hfold)
  simp [RunState.stored, RunState.outcome, Function.comp_def]

/-! ## One UID, stored once -/

theorem Listing.uids_nodup_iff {entries : List Entry} (h : Listing entries) :
    (entries.map (·.uid)).Nodup ↔ ∀ e ∈ entries, e.update = false := by
  constructor
  · intro hnodup e he
    by_contra hup
    obtain ⟨pre, post, rfl⟩ := List.append_of_mem he
    obtain ⟨full, hfull, -, huid⟩ := h.listed pre e post rfl (by simpa using hup)
    rw [List.map_append, List.map_cons, List.nodup_append] at hnodup
    exact hnodup.2.2 full.uid (List.mem_map_of_mem hfull) e.uid List.mem_cons_self huid
  · intro hall
    have hfilter : entries.filter (!·.update) = entries :=
      List.filter_eq_self.2 fun e he => by simp [hall e he]
    have := h.once
    rwa [hfilter] at this

/-- A listing stores each message once, with any server and any writer, exactly when there is no
update in it. -/
theorem listing_stored_once_iff (entries : List Entry) (h : Listing entries) :
    StoresOnce (response entries) ↔ ∀ e ∈ entries, e.update = false := by
  obtain ⟨metas, hparse, huids⟩ := h.parse
  rw [← h.uids_nodup_iff, ← huids]
  constructor
  · intro honce
    have hstored := plenty_stores (response entries) metas hparse {} 1
    obtain ⟨taken, htaken, hnodup⟩ := honce Unit Unit Shelf (desk.over .insertion
      (mailServer (.ok []) (fun _ => .ok (response entries)) plenty (.error "NO"))) .insertion
      (mailServer (.ok []) (fun _ => .ok (response entries)) plenty (.error "NO")) {} {} 1
      { client := (), spool := (), writer := {} } (by
        have hne : ImapClient.listMessagesCommand ≠ ImapClient.listFoldersCommand := by decide
        simp [mailServer, hne])
    have hempty : (RunState.stored ({ client := (), spool := (), writer := {} } :
        RunState Unit Unit Shelf)) = [] := rfl
    rw [hempty, List.nil_append] at htaken
    rw [← hstored]
    exact htaken ▸ hnodup
  · intro hnodup T F W sv srt tr opts folder id st hcmd
    have hlist : (sv.over srt tr).client.listMessages st.client folder.rawName =
        (.ok metas, (tr.command st.client folder.rawName ImapClient.listMessagesCommand).2) := by
      generalize hanswer : tr.command st.client folder.rawName ImapClient.listMessagesCommand =
        answer at hcmd
      obtain ⟨reply, t'⟩ := answer
      obtain rfl : reply = .ok (response entries) := hcmd
      simp only [Services.over, ImapClient.ops, ImapClient.listMessages, hanswer,
        ImapClient.request, hparse]
    obtain ⟨taken, hsub, hst⟩ := runListing_stores (sv.over srt tr) opts folder id st metas _ hlist
    refine ⟨taken, hst, ?_⟩
    have huid := (hsub.map fun p : Position => p.2.uid)
    rw [List.map_map] at huid
    exact hnodup.sublist huid

/-- A message, and an update of its flags. -/
def seenLater : List Entry :=
  [⟨{ seq := 1, items := [.uid 5, .flags [], .internalDate (str "14-Nov-2023 22:13:20 +0000"),
      .size 2] }, 5, false⟩,
    ⟨{ seq := 1, items := [.uid 5, .flags [str "\\Seen"]] }, 5, true⟩]

/-- The message is in the PST twice. -/
theorem seenLater_stored_twice :
    ((run desk {} [.ok (str "* LIST () \"/\" \"INBOX\"\r\n"), .ok (response seenLater),
        .error "NO", .ok (str "Hi"), .ok (str "Hi")] ()).2.map fun st =>
      st.stored.map fun p => (p.1.fullName, p.2.uid)) =
      some [(str "INBOX", 5), (str "INBOX", 5)] := by
  decide +kernel

theorem seenLater_listing : Listing seenLater where
  wellFormed e he := by
    rcases List.mem_cons.1 he with rfl | he
    · intro item hitem
      simp only [List.mem_cons, List.not_mem_nil, or_false] at hitem
      rcases hitem with rfl | rfl | rfl | rfl
      · trivial
      · exact fun _ h => absurd h List.not_mem_nil
      · change ∀ c ∈ str "14-Nov-2023 22:13:20 +0000", c ≠ 34 ∧ c ≠ 92 ∧ c ≠ 10
        decide +kernel
      · trivial
    · obtain rfl := List.mem_singleton.1 he
      intro item hitem
      simp only [List.mem_cons, List.not_mem_nil, or_false] at hitem
      rcases hitem with rfl | rfl
      · trivial
      · change ∀ name ∈ [str "\\Seen"], ∀ c ∈ name, isAtomChar c
        decide +kernel
  bounded := by decide +kernel
  lines e he := by
    rcases List.mem_cons.1 he with rfl | he
    · exact ⟨_, _, _, .refl _⟩
    · obtain rfl := List.mem_singleton.1 he
      exact ⟨_, .refl _⟩
  once := by decide
  listed pre e post hsplit hup := by
    rcases pre with _ | ⟨full, pre⟩
    · simp only [seenLater, List.nil_append, List.cons.injEq] at hsplit
      rw [← hsplit.1] at hup
      cases hup
    · simp only [seenLater, List.cons_append, List.cons.injEq] at hsplit
      refine ⟨full, List.mem_cons_self, by rw [← hsplit.1], ?_⟩
      have he : e ∈ [(⟨{ seq := 1, items := [.uid 5, .flags [str "\\Seen"]] }, 5, true⟩ : Entry)] := by
        rw [hsplit.2]
        simp
      rw [List.mem_singleton.1 he, ← hsplit.1]

theorem seenLater_once_iff :
    StoresOnce (response seenLater) ↔ ∀ e ∈ seenLater, e.update = false :=
  listing_stored_once_iff seenLater seenLater_listing

end Pipeline
end Imap2Pst
