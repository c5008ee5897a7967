import Imap2Pst.Imap.Server
import Imap2Pst.Pipeline.Accounting
import Mathlib.Algebra.BigOperators.Group.List.Basic
import Mathlib.Algebra.Order.Group.Multiset

/-!
# Pipeline.Batching

The migration without batches: one message after the other, each with the body its server has.
`run` refines it, whatever the batch sizes are and whichever batches fail or come back short.

* `migrateOne`, `migrateFolders` — the unbatched migration, over the outcome of a run.
* `runBatch_outcome`, `run_outcome` — the refinement.
* `batching_invisible` — so two runs that batch differently have one outcome.
-/

namespace Imap2Pst
namespace Pipeline

open CxxStd Imap

variable {C F W : Type}

/-! ## Outcomes -/

/-- The counters of a run and its failures, which do not depend on the order of the messages. -/
@[ext] structure Tally where
  messages : Nat := 0
  attachments : Nat := 0
  fetchedBytes : Nat := 0
  failedMessages : Nat := 0
  failed : Multiset (Bytes × UInt32) := 0

namespace Tally

instance : Zero Tally := ⟨{}⟩

instance : Add Tally := ⟨fun a b =>
  ⟨a.messages + b.messages, a.attachments + b.attachments, a.fetchedBytes + b.fetchedBytes,
    a.failedMessages + b.failedMessages, a.failed + b.failed⟩⟩

theorem add_def (a b : Tally) : a + b =
    ⟨a.messages + b.messages, a.attachments + b.attachments, a.fetchedBytes + b.fetchedBytes,
      a.failedMessages + b.failedMessages, a.failed + b.failed⟩ := rfl

theorem zero_def : (0 : Tally) = {} := rfl

instance : AddCommMonoid Tally where
  add_assoc a b c := by simp only [add_def, add_assoc]
  zero_add a := by simp [add_def, zero_def]
  add_zero a := by simp [add_def, zero_def]
  add_comm a b := by
    simp only [add_def, Nat.add_comm b.messages, Nat.add_comm b.attachments,
      Nat.add_comm b.fetchedBytes, Nat.add_comm b.failedMessages, add_comm b.failed]
  nsmul := nsmulRec

def failure (folder : FolderInfo) (info : MessageMeta) : Tally :=
  { failedMessages := 1, failed := {(folder.fullName, info.uid)} }

def fetched (octets : Bytes) : Tally := { fetchedBytes := octets.length }

end Tally

/-- What a run comes to: all of its state but the client, the spool and the order and reasons of
the failures. -/
@[ext] structure Outcome (W : Type) where
  writer : W
  byPath : List (Bytes × FolderId)
  folders : Nat
  listings : List (FolderInfo × List MessageMeta)
  refused : List FolderInfo
  attempts : List Attempt
  tally : Tally

def RunState.tally (st : RunState C F W) : Tally :=
  ⟨st.stats.messages, st.stats.attachments, st.stats.fetchedBytes, st.stats.failedMessages,
    st.failed⟩

def RunState.outcome (st : RunState C F W) : Outcome W :=
  ⟨st.writer, st.byPath, st.stats.folders, st.listings, st.refused, st.attempts, st.tally⟩

def Outcome.add (o : Outcome W) (t : Tally) : Outcome W := { o with tally := o.tally + t }

@[simp] theorem Outcome.add_zero (o : Outcome W) : o.add 0 = o := by simp [Outcome.add]

@[simp] theorem Outcome.add_add (o : Outcome W) (s t : Tally) : (o.add s).add t = o.add (s + t) := by
  simp [Outcome.add, add_assoc]

theorem Outcome.add_right_comm (o : Outcome W) (s t : Tally) :
    (o.add s).add t = (o.add t).add s := by
  rw [Outcome.add_add, Outcome.add_add, add_comm]

/-- What `f` keeps of the state a run ends in. -/
def mapState {S T : Type} (f : S → T) (r : Ending × S) : Ending × T := (r.1, f r.2)

/-! ## The unbatched migration -/

/-- The services behind the client. -/
structure Target (W : Type) where
  writer : WriterOps W
  parse : RawMessage → Except String Message
  srt : StdSort

def Services.target (sv : Services C F W) : Target W := ⟨sv.writer, sv.parse, sv.srt⟩

@[simp] theorem Services.target_writer (sv : Services C F W) : sv.target.writer = sv.writer := rfl
@[simp] theorem Services.target_parse (sv : Services C F W) : sv.target.parse = sv.parse := rfl
@[simp] theorem Services.target_srt (sv : Services C F W) : sv.target.srt = sv.srt := rfl

/-- Hands one source over. -/
def deliver (tg : Target W) (folder : FolderInfo) (id : FolderId) (info : MessageMeta)
    (raw : RawMessage) (o : Outcome W) : Outcome W :=
  let attempt stored := o.attempts ++ [{ folder, id, info, raw, stored }]
  match tg.parse raw with
  | .error _ => { o with attempts := attempt false }.add (.failure folder info)
  | .ok msg =>
    match tg.writer.addMessage o.writer id (withListedSize msg info) with
    | (.error _, writer) => { o with writer, attempts := attempt false }.add (.failure folder info)
    | (.ok (), writer) =>
      { o with writer, attempts := attempt true }.add
        { messages := 1, attachments := msg.attachments.length }

/-- Writes one slot: `none` for a message that has been given up. -/
def writeOne (tg : Target W) (folder : FolderInfo) (id : FolderId) (o : Outcome W)
    (s : MessageMeta × Option RawMessage) : Outcome W :=
  match s.2 with
  | none => o
  | some raw =>
    if raw.rfc822 = [] then o.add (.failure folder s.1) else deliver tg folder id s.1 raw o

/-- What the server has of a message. -/
def source (mail : Mailboxes) (folder : FolderInfo) (info : MessageMeta) : Option RawMessage :=
  (mail folder.rawName info.uid).map (ImapClient.rawOf info)

/-- What fetching a message adds to the tally. -/
def fetchTally (mail : Mailboxes) (folder : FolderInfo) (info : MessageMeta) : Tally :=
  match mail folder.rawName info.uid with
  | none => .failure folder info
  | some octets => .fetched octets

def migrateOne (tg : Target W) (mail : Mailboxes) (folder : FolderInfo) (id : FolderId)
    (o : Outcome W) (info : MessageMeta) : Outcome W :=
  (writeOne tg folder id o (info, source mail folder info)).add (fetchTally mail folder info)

/-- One folder, whose listing is `listing`. -/
def migrateListing (tg : Target W) (mail : Mailboxes)
    (listing : Reply ClientExn (List MessageMeta)) (folder : FolderInfo) (id : FolderId)
    (o : Outcome W) : Ending × Outcome W :=
  match listing with
  | .ok metas =>
    (.returns, metas.foldl (migrateOne tg mail folder id)
      { o with listings := o.listings ++ [(folder, metas)] })
  | .throws (.imapError _) => (.returns, { o with refused := o.refused ++ [folder] })
  | .throws e => (.throws e.what, o)
  | .hangs => (.hangs, o)

def migrateFolder (tg : Target W) (mail : Mailboxes)
    (listing : Bytes → Reply ClientExn (List MessageMeta)) (folder : FolderInfo) (o : Outcome W) :
    Ending × Outcome W :=
  if folder.path = [] then (.returns, o)
  else
    match folderFor tg.writer [] tg.writer.ipmSubtree folder.path (o.writer, o.byPath) with
    | (.error what, writer, byPath) => (.throws what, { o with writer, byPath })
    | (.ok id, writer, byPath) =>
      let o := { o with writer, byPath, folders := o.folders + 1 }
      if folder.selectable then migrateListing tg mail (listing folder.rawName) folder id o
      else (.returns, o)

def migrateFolders (tg : Target W) (mail : Mailboxes)
    (listing : Bytes → Reply ClientExn (List MessageMeta)) :
    List FolderInfo → Outcome W → Ending × Outcome W
  | [], o => (.returns, o)
  | folder :: rest, o =>
    andThen (migrateFolder tg mail listing folder o) (migrateFolders tg mail listing rest)

def finishOutcome (tg : Target W) (o : Outcome W) : Ending × Outcome W :=
  match tg.writer.finish o.writer with
  | (.error what, writer) => (.throws what, { o with writer })
  | (.ok (), writer) => (.returns, { o with writer })

def migration (tg : Target W) (opts : Options) (mail : Mailboxes)
    (folders : Reply ClientExn (List FolderInfo))
    (listing : Bytes → Reply ClientExn (List MessageMeta)) : Ending × Option (Outcome W) :=
  match folders with
  | .throws e => (.throws e.what, none)
  | .hangs => (.hangs, none)
  | .ok listed =>
    match tg.writer.create opts.outputPath with
    | .error what => (.throws what, none)
    | .ok writer =>
      mapState some (andThen
        (migrateFolders tg mail listing (tg.srt.sort folderLt (selected opts listed))
          ⟨writer, [], 0, [], [], [], 0⟩)
        (finishOutcome tg))

/-! ## What writing does not touch -/

theorem deliver_add (tg : Target W) (folder : FolderInfo) (id : FolderId)
    (info : MessageMeta) (raw : RawMessage) (o : Outcome W) (t : Tally) :
    deliver tg folder id info raw (o.add t) = (deliver tg folder id info raw o).add t := by
  simp only [deliver, Outcome.add]
  split
  · simp only [add_right_comm]
  · split <;> simp only [add_right_comm]

theorem writeOne_add (tg : Target W) (folder : FolderInfo) (id : FolderId) (o : Outcome W)
    (s : MessageMeta × Option RawMessage) (t : Tally) :
    writeOne tg folder id (o.add t) s = (writeOne tg folder id o s).add t := by
  simp only [writeOne]
  split
  · rfl
  · split
    · rw [Outcome.add_right_comm]
    · exact deliver_add ..

/-- Fetching first and writing then comes to the same as doing both message by message. -/
theorem foldl_migrateOne (tg : Target W) (mail : Mailboxes) (folder : FolderInfo)
    (id : FolderId) (batch : List MessageMeta) (o : Outcome W) :
    batch.foldl (migrateOne tg mail folder id) o =
      (batch.map fun m => (m, source mail folder m)).foldl (writeOne tg folder id)
        (o.add (batch.map (fetchTally mail folder)).sum) := by
  induction batch generalizing o with
  | nil => simp
  | cons m batch ih =>
    simp only [List.foldl_cons, List.map_cons, List.sum_cons, ih, migrateOne, Outcome.add_add]
    rw [← writeOne_add]

/-! ## One batch -/

theorem fail_outcome (st : RunState C F W) (folder : FolderInfo) (info : MessageMeta)
    (reason : String) :
    (st.fail folder info reason).outcome = st.outcome.add (.failure folder info) := by
  have hfailed : (((st.fail folder info reason).failed : List _) : Multiset (Bytes × UInt32)) =
      st.failed + {(folder.fullName, info.uid)} := by
    rw [← Multiset.coe_singleton, Multiset.coe_add]
    simp [RunState.fail, RunState.failed]
  simp only [RunState.outcome, RunState.tally, hfailed]
  rfl

theorem handOver_outcome (sv : Services C F W) (folder : FolderInfo) (id : FolderId)
    (info : MessageMeta) (raw : RawMessage) (st : RunState C F W) :
    (handOver sv folder id info raw st).outcome = deliver sv.target folder id info raw st.outcome := by
  have hwriter : st.outcome.writer = st.writer := rfl
  simp only [handOver, deliver, hwriter, Services.target_parse, Services.target_writer]
  cases sv.parse raw with
  | error what => exact fail_outcome ..
  | ok msg =>
    obtain ⟨answer, writer, hadd⟩ : ∃ answer writer,
        sv.writer.addMessage st.writer id (withListedSize msg info) = (answer, writer) :=
      ⟨_, _, rfl⟩
    simp only [hadd]
    cases answer with
    | error what => exact fail_outcome ..
    | ok => simp [RunState.outcome, RunState.tally, RunState.failed, Outcome.add, Tally.add_def]

theorem keep_outcome (sv : Services C F W) (opts : Options) (folder : FolderInfo)
    (info : MessageMeta) (raw : RawMessage) (st : RunState C F W) :
    (st.keep sv opts folder info raw).outcome = st.outcome.add (.fetched raw.rfc822) := by
  simp [RunState.keep, RunState.outcome, RunState.tally, RunState.failed, Outcome.add,
    Tally.add_def, Tally.fetched]

/-- A slot as the write loop finds it. -/
def slotOf : Option RawMessage → RawMessage × Bool
  | some raw => (raw, false)
  | none => ({}, true)

theorem writePass_outcome (sv : Services C F W) (folder : FolderInfo) (id : FolderId) :
    ∀ (slots : List (MessageMeta × Option RawMessage)) (st : RunState C F W),
      (writePass sv folder id (slots.map fun s => (s.1, slotOf s.2)) st).outcome =
        slots.foldl (writeOne sv.target folder id) st.outcome := by
  intro slots
  induction slots with
  | nil => exact fun _ => rfl
  | cons s slots ih =>
    intro st
    obtain ⟨info, _ | raw⟩ := s
    · exact ih st
    · rw [List.map_cons, show slotOf (some raw) = (raw, false) from rfl, writePass,
        List.foldl_cons, writeOne]
      dsimp only
      split
      · rw [ih, if_neg Bool.false_ne_true, fail_outcome]
      · rw [ih, handOver_outcome]

/-- The source a slot ends up with: the spooled one, or the one the server has. -/
def filled (mail : Mailboxes) (folder : FolderInfo) (s : MessageMeta × Option RawMessage) :
    Option RawMessage :=
  match s.2 with
  | some raw => some raw
  | none => source mail folder s.1

/-- What filling a slot adds to the tally. -/
def slotTally (mail : Mailboxes) (folder : FolderInfo) (s : MessageMeta × Option RawMessage) :
    Tally :=
  match s.2 with
  | some _ => 0
  | none => fetchTally mail folder s.1

/-- What filling a slot does to the spool. -/
def slotSpool (sv : Services C F W) (opts : Options) (mail : Mailboxes) (folder : FolderInfo)
    (f : F) (s : MessageMeta × Option RawMessage) : F :=
  match s.2, mail folder.rawName s.1.uid with
  | none, some octets =>
    if opts.spoolDir ≠ [] ∧ octets ≠ [] then
      sv.spool.writeFile f (spoolPath opts.spoolDir folder.fullName s.1.uid) octets
    else f
  | _, _ => f

/-- From the `i`-th message asked for on, `got` has nothing but their sources. -/
def FaithfulFrom (mail : Mailboxes) (mailbox : Bytes) (got : List RawMessage) (i : Nat)
    (wanted : List MessageMeta) : Prop :=
  ∀ k m, wanted[k]? = some m → (got.getD (i + k) ({} : RawMessage)).rfc822 ≠ [] →
    ∃ octets, mail mailbox m.uid = some octets ∧
      got.getD (i + k) ({} : RawMessage) = ImapClient.rawOf m octets

theorem FaithfulFrom.tail {mail : Mailboxes} {mailbox : Bytes} {got : List RawMessage} {i : Nat}
    {m : MessageMeta} {wanted : List MessageMeta}
    (h : FaithfulFrom mail mailbox got i (m :: wanted)) :
    FaithfulFrom mail mailbox got (i + 1) wanted := by
  intro k m' hk
  have := h (k + 1) m' (by simpa using hk)
  rwa [show i + (k + 1) = i + 1 + k by omega] at this

theorem Faithful.from_zero {mail : Mailboxes} {mailbox : Bytes} {wanted : List MessageMeta}
    {got : List RawMessage} (h : Faithful mail mailbox wanted got) :
    FaithfulFrom mail mailbox got 0 wanted := by
  intro k m hk hne
  obtain ⟨hlt, rfl⟩ := List.getElem?_eq_some_iff.1 hk
  have hlt' : k < got.length := h.length_eq ▸ hlt
  have hget : got.getD (0 + k) ({} : RawMessage) = got[k] := by simp [hlt']
  rw [hget] at hne ⊢
  exact (List.forall₂_iff_get.1 h).2 k hlt hlt' hne

/-- A batch that came back empty is faithful too. -/
theorem faithfulFrom_empty (mail : Mailboxes) (mailbox : Bytes) (n : Nat)
    (wanted : List MessageMeta) :
    FaithfulFrom mail mailbox (List.replicate n ({} : RawMessage)) 0 wanted := by
  intro k m _ hne
  refine absurd ?_ hne
  rw [List.getD_eq_getElem?_getD, List.getElem?_replicate]
  split <;> rfl

theorem fetchSlots_honest {sv : Services C F W} {mail : Mailboxes} (hc : Honest sv.client mail)
    (opts : Options) (folder : FolderInfo) (got : List RawMessage) (size : Nat) :
    ∀ (rest : List (MessageMeta × Option RawMessage)) (p i : Nat) (st : RunState C F W),
      FaithfulFrom mail folder.rawName got i ((wantedFrom p rest).map (·.1)) →
      ∃ st', fetchSlots sv opts folder got size i rest st =
          (.returns, rest.map (fun s => slotOf (filled mail folder s)), st') ∧
        st'.outcome = st.outcome.add (rest.map (slotTally mail folder)).sum ∧
        st'.spool = rest.foldl (slotSpool sv opts mail folder) st.spool := by
  intro rest
  induction rest with
  | nil => exact fun _ _ st _ => ⟨st, rfl, by simp, rfl⟩
  | cons slot rest ih =>
    intro p i st hfaith
    obtain ⟨info, _ | raw⟩ := slot
    · have htail : FaithfulFrom mail folder.rawName got (i + 1)
          ((wantedFrom (p + 1) rest).map (·.1)) := hfaith.tail
      -- the body the server has, however it arrived
      have kept : ∀ (octets : Bytes) (client : C), mail folder.rawName info.uid = some octets →
          ∃ st', fetchSlots sv opts folder got size (i + 1) rest
              ({ st with client }.keep sv opts folder info (ImapClient.rawOf info octets)) =
              (.returns, rest.map (fun s => slotOf (filled mail folder s)), st') ∧
            st'.outcome = st.outcome.add
              (((info, none) :: rest).map (slotTally mail folder)).sum ∧
            st'.spool = ((info, none) :: rest).foldl (slotSpool sv opts mail folder) st.spool := by
        intro octets client hmail
        obtain ⟨st', heq, hout, hspool⟩ := ih (p + 1) (i + 1) _ htail
        refine ⟨st', heq, ?_, ?_⟩
        · rw [hout, keep_outcome, Outcome.add_add, List.map_cons, List.sum_cons]
          simp only [slotTally, fetchTally, hmail]
          rfl
        · rw [hspool, List.foldl_cons]
          simp only [slotSpool, hmail]
          rfl
      simp only [fetchSlots]
      split
      · rename_i hgot
        obtain ⟨octets, hmail, hbody⟩ := hfaith 0 info (by simp [wantedFrom]) hgot.2
        rw [Nat.add_zero] at hbody
        obtain ⟨st', heq, hrest⟩ := kept octets st.client hmail
        refine ⟨st', ?_, hrest⟩
        simp only [hbody]
        rw [heq]
        simp [filled, source, hmail, slotOf]
      · obtain ⟨c', ⟨octets, hmail, hfetch⟩ | ⟨hmail, what, hfetch⟩⟩ :=
          hc.single st.client folder.rawName info
        · obtain ⟨st', heq, hrest⟩ := kept octets c' hmail
          refine ⟨st', ?_, hrest⟩
          simp only [hfetch]
          rw [heq]
          simp [filled, source, hmail, slotOf]
        · obtain ⟨st', heq, hout, hspool⟩ := ih (p + 1) (i + 1)
            ({ st with client := c' }.fail folder info what) htail
          refine ⟨st', ?_, ?_, ?_⟩
          · simp only [hfetch]
            rw [heq]
            simp [filled, source, hmail, slotOf]
          · rw [hout, fail_outcome, Outcome.add_add, List.map_cons, List.sum_cons]
            simp only [slotTally, fetchTally, hmail]
            rfl
          · rw [hspool, List.foldl_cons]
            simp only [slotSpool, hmail]
            rfl
    · obtain ⟨st', heq, hout, hspool⟩ := ih (p + 1) i st hfaith
      refine ⟨st', ?_, ?_, ?_⟩
      · simp only [fetchSlots, heq]
        simp [filled, slotOf]
      · rw [hout, List.map_cons, List.sum_cons]
        simp [slotTally]
      · rw [hspool, List.foldl_cons]
        simp only [slotSpool]

theorem settle_honest {sv : Services C F W} {mail : Mailboxes} (hc : Honest sv.client mail)
    (opts : Options) (folder : FolderInfo) (slots : List (MessageMeta × Option RawMessage))
    (st : RunState C F W) :
    ∃ st', settle sv opts folder slots st =
        (.returns, slots.map (fun s => slotOf (filled mail folder s)), st') ∧
      st'.outcome = st.outcome.add (slots.map (slotTally mail folder)).sum ∧
      st'.spool = slots.foldl (slotSpool sv opts mail folder) st.spool := by
  simp only [settle]
  split
  · rename_i hnone
    have hfull : ∀ s ∈ slots, ∃ raw, s.2 = some raw := by
      have step : ∀ (l : List (MessageMeta × Option RawMessage)) (p : Nat),
          wantedFrom p l = [] → ∀ s ∈ l, ∃ raw, s.2 = some raw := by
        intro l
        induction l with
        | nil => exact fun _ _ _ h => absurd h (List.not_mem_nil)
        | cons s l ih =>
          intro p hp t ht
          obtain ⟨m, _ | raw⟩ := s
          · cases hp
          · rcases List.mem_cons.1 ht with rfl | ht
            · exact ⟨raw, rfl⟩
            · exact ih (p + 1) hp t ht
      exact step slots 0 (by simpa using hnone)
    refine ⟨st, ?_, ?_, ?_⟩
    · refine Prod.ext rfl (Prod.ext (List.map_congr_left fun s hs => ?_) rfl)
      obtain ⟨raw, hraw⟩ := hfull s hs
      simp [filled, slotOf, hraw]
    · have hzero : (slots.map (slotTally mail folder)).sum = 0 :=
        List.sum_eq_zero fun t ht => by
          obtain ⟨s, hs, rfl⟩ := List.mem_map.1 ht
          obtain ⟨raw, hraw⟩ := hfull s hs
          simp [slotTally, hraw]
      rw [hzero, Outcome.add_zero]
    · clear hnone
      induction slots generalizing st with
      | nil => rfl
      | cons s slots ih =>
        obtain ⟨raw, hraw⟩ := hfull s List.mem_cons_self
        have hstep : slotSpool sv opts mail folder st.spool s = st.spool := by
          simp [slotSpool, hraw]
        rw [List.foldl_cons, hstep]
        exact ih st fun t ht => hfull t (List.mem_cons_of_mem _ ht)
  · obtain ⟨c', ⟨what, hbatch⟩ | ⟨got, hbatch, hfaith⟩⟩ :=
      hc.batch st.client folder.rawName ((wantedFrom 0 slots).map (·.1))
    · rw [hbatch]
      exact fetchSlots_honest hc opts folder _ _ slots 0 0 { st with client := c' }
        (faithfulFrom_empty mail folder.rawName _ _)
    · rw [hbatch]
      exact fetchSlots_honest hc opts folder got _ slots 0 0 { st with client := c' }
        (Faithful.from_zero hfaith)

theorem writePass_spool (sv : Services C F W) (folder : FolderInfo) (id : FolderId) :
    ∀ (slots : List (MessageMeta × RawMessage × Bool)) (st : RunState C F W),
      (writePass sv folder id slots st).spool = st.spool := by
  intro slots
  induction slots with
  | nil => exact fun _ => rfl
  | cons s slots ih =>
    intro st
    obtain ⟨info, raw, accounted⟩ := s
    simp only [writePass]
    split
    · rw [ih]
      split <;> rfl
    · rw [ih]
      simp only [handOver]
      split
      · rfl
      · split <;> rfl

/-- The messages of a batch with what the spool holds for them. -/
def batchSlots (sv : Services C F W) (opts : Options) (folder : FolderInfo)
    (batch : List MessageMeta) (f : F) : List (MessageMeta × Option RawMessage) :=
  batch.zip (spoolSlots sv opts folder batch f).1

/-- A batch over an honest client: the slots are filled from the spool and the server, then
written. -/
theorem runBatch_honest {sv : Services C F W} {mail : Mailboxes} (hc : Honest sv.client mail)
    (opts : Options) (folder : FolderInfo) (id : FolderId) (batch : List MessageMeta)
    (st : RunState C F W) :
    ∃ st', runBatch sv opts folder id batch st = (.returns, st') ∧
      st'.outcome = ((batchSlots sv opts folder batch st.spool).map
        fun s => (s.1, filled mail folder s)).foldl (writeOne sv.target folder id)
          (st.outcome.add ((batchSlots sv opts folder batch st.spool).map
            (slotTally mail folder)).sum) ∧
      st'.spool = (batchSlots sv opts folder batch st.spool).foldl (slotSpool sv opts mail folder)
        (spoolSlots sv opts folder batch st.spool).2 := by
  have hlen := spoolSlots_length sv opts folder batch st.spool
  obtain ⟨mid, hsettle, hout, hspool⟩ := settle_honest hc opts folder
    (batchSlots sv opts folder batch st.spool) (spoolState sv opts folder batch st)
  have hfst : (batchSlots sv opts folder batch st.spool).map (·.1) = batch :=
    List.map_fst_zip (by omega)
  have hslots : batch.zip ((batchSlots sv opts folder batch st.spool).map fun s =>
      slotOf (filled mail folder s)) =
        ((batchSlots sv opts folder batch st.spool).map fun s => (s.1, filled mail folder s)).map
          fun s => (s.1, slotOf s.2) := by
    generalize batchSlots sv opts folder batch st.spool = slots at hfst
    rw [← hfst, List.zip_map', List.map_map]
    rfl
  refine ⟨writePass sv folder id (batch.zip ((batchSlots sv opts folder batch st.spool).map fun s =>
    slotOf (filled mail folder s))) mid, ?_, ?_, ?_⟩
  · rw [runBatch_eq]
    simp only [batchSlots] at hsettle
    simp only [hsettle]
    rfl
  · rw [hslots, writePass_outcome, hout]
    rfl
  · rw [writePass_spool, hspool]
    rfl

/-! ## The refinement -/

/-- Without a spool every slot is empty. -/
theorem batchSlots_off (sv : Services C F W) {opts : Options} (hdir : opts.spoolDir = [])
    (folder : FolderInfo) (batch : List MessageMeta) (f : F) :
    batchSlots sv opts folder batch f = batch.map fun m => (m, none) := by
  have hslots : (spoolSlots sv opts folder batch f).1 = batch.map fun _ => none := by
    induction batch with
    | nil => rfl
    | cons m batch ih => simp only [spoolSlots, hdir, if_true, ih, List.map_cons]
  rw [batchSlots, hslots]
  have hzip : (batch.map fun m => m).zip (batch.map fun _ => (none : Option RawMessage)) = _ :=
    List.zip_map'
  simpa using hzip

theorem runBatch_outcome {sv : Services C F W} {mail : Mailboxes} (hc : Honest sv.client mail)
    {opts : Options} (hdir : opts.spoolDir = []) (folder : FolderInfo) (id : FolderId)
    (batch : List MessageMeta) (st : RunState C F W) :
    ∃ st', runBatch sv opts folder id batch st = (.returns, st') ∧
      st'.outcome = batch.foldl (migrateOne sv.target mail folder id) st.outcome := by
  obtain ⟨st', hrun, hout, -⟩ := runBatch_honest hc opts folder id batch st
  refine ⟨st', hrun, ?_⟩
  rw [hout, batchSlots_off sv hdir, foldl_migrateOne, List.map_map, List.map_map]
  rfl

theorem batchLoop_outcome {sv : Services C F W} {mail : Mailboxes} (hc : Honest sv.client mail)
    {opts : Options} (hb : 1 ≤ opts.batchSize) (hdir : opts.spoolDir = []) (folder : FolderInfo)
    (id : FolderId) (metas : List MessageMeta) (st : RunState C F W) :
    ∃ st', batchLoop sv opts folder id metas.length metas st = (.returns, st') ∧
      st'.outcome = metas.foldl (migrateOne sv.target mail folder id) st.outcome := by
  have hstep := runBatch_outcome hc hdir folder id
  obtain ⟨st', hret⟩ := batchLoop_returns hb
    (fun batch st => (hstep batch st).imp fun _ h => h.1) metas.length metas st le_rfl
  refine ⟨st', hret, ?_⟩
  refine batchLoop_rule (R := fun metas st st' =>
    st'.outcome = metas.foldl (migrateOne sv.target mail folder id) st.outcome) (fun _ => rfl) ?_
    _ metas st st' hret
  intro batch rest st mid st' hbatch hrest
  obtain ⟨mid', hmid, hout⟩ := hstep batch st
  rw [hmid, Prod.mk.injEq] at hbatch
  obtain ⟨-, rfl⟩ := hbatch
  rw [hrest, hout, List.foldl_append]

/-- The listings a client gives do not depend on what was asked before. -/
structure Lists (client : ClientOps C) (folders : Reply ClientExn (List FolderInfo))
    (listing : Bytes → Reply ClientExn (List MessageMeta)) : Prop where
  folders : ∀ c, ∃ c', client.listFolders c = (folders, c')
  messages : ∀ c mailbox, ∃ c', client.listMessages c mailbox = (listing mailbox, c')

section Refinement

variable {sv : Services C F W} {mail : Mailboxes} {opts : Options}
  {folders : Reply ClientExn (List FolderInfo)}
  {listing : Bytes → Reply ClientExn (List MessageMeta)}

theorem runListing_outcome (hc : Honest sv.client mail) (hl : Lists sv.client folders listing)
    (hb : 1 ≤ opts.batchSize) (hdir : opts.spoolDir = []) (folder : FolderInfo) (id : FolderId)
    (st : RunState C F W) :
    mapState RunState.outcome (runListing sv opts folder id st) =
      migrateListing sv.target mail (listing folder.rawName) folder id st.outcome := by
  obtain ⟨client, hlist⟩ := hl.messages st.client folder.rawName
  simp only [runListing, migrateListing, hlist]
  cases listing folder.rawName with
  | ok metas =>
    obtain ⟨st', hret, hout⟩ := batchLoop_outcome hc hb hdir folder id metas
      { st with client, listings := st.listings ++ [(folder, metas)] }
    simp only [hret, mapState, hout]
    rfl
  | throws e => cases e <;> rfl
  | hangs => rfl

theorem runFolder_outcome (hc : Honest sv.client mail) (hl : Lists sv.client folders listing)
    (hb : 1 ≤ opts.batchSize) (hdir : opts.spoolDir = []) (folder : FolderInfo)
    (st : RunState C F W) :
    mapState RunState.outcome (runFolder sv opts folder st) =
      migrateFolder sv.target mail listing folder st.outcome := by
  have hwriter : (st.outcome.writer, st.outcome.byPath) = (st.writer, st.byPath) := rfl
  simp only [runFolder, migrateFolder, hwriter, Services.target_writer]
  split
  · rfl
  · obtain ⟨answer, writer, byPath, hfor⟩ : ∃ answer writer byPath,
        folderFor sv.writer [] sv.writer.ipmSubtree folder.path (st.writer, st.byPath) =
          (answer, writer, byPath) := ⟨_, _, _, rfl⟩
    simp only [hfor]
    cases answer with
    | error what => rfl
    | ok id =>
      dsimp only
      split
      · exact runListing_outcome hc hl hb hdir folder id _
      · rfl

theorem andThen_map {S T : Type} (f : S → T) {r : Ending × S} {k : S → Ending × S}
    {k' : T → Ending × T} (hk : ∀ s, mapState f (k s) = k' (f s)) :
    mapState f (andThen r k) = andThen (mapState f r) k' := by
  obtain ⟨e, s⟩ := r
  cases e with
  | returns => exact hk s
  | throws what => rfl
  | hangs => rfl

theorem folderLoop_outcome (hc : Honest sv.client mail) (hl : Lists sv.client folders listing)
    (hb : 1 ≤ opts.batchSize) (hdir : opts.spoolDir = []) :
    ∀ (todo : List FolderInfo) (st : RunState C F W),
      mapState RunState.outcome (folderLoop sv opts todo st) =
        migrateFolders sv.target mail listing todo st.outcome := by
  intro todo
  induction todo with
  | nil => exact fun _ => rfl
  | cons folder rest ih =>
    intro st
    rw [folderLoop, migrateFolders, andThen_map RunState.outcome ih,
      runFolder_outcome hc hl hb hdir]

theorem finishWriter_outcome (sv : Services C F W) (st : RunState C F W) :
    mapState RunState.outcome (finishWriter sv st) = finishOutcome sv.target st.outcome := by
  have hwriter : st.outcome.writer = st.writer := rfl
  simp only [finishWriter, finishOutcome, hwriter, Services.target_writer]
  obtain ⟨answer, writer, hfin⟩ : ∃ answer writer, sv.writer.finish st.writer = (answer, writer) :=
    ⟨_, _, rfl⟩
  simp only [hfin]
  cases answer <;> rfl

/-- A run without a spool is the unbatched migration. -/
theorem run_outcome (hc : Honest sv.client mail) (hl : Lists sv.client folders listing)
    (hb : 1 ≤ opts.batchSize) (hdir : opts.spoolDir = []) (client : C) (spool : F) :
    mapState (Option.map RunState.outcome) (run sv opts client spool) =
      migration sv.target opts mail folders listing := by
  obtain ⟨client', hlist⟩ := hl.folders client
  simp only [run, migration, hlist, Services.target_writer, Services.target_srt]
  cases folders with
  | throws e => rfl
  | hangs => rfl
  | ok listed =>
    cases hcreate : sv.writer.create opts.outputPath with
    | error what => rfl
    | ok writer =>
      have hmig := andThen_map RunState.outcome (finishWriter_outcome sv)
        (r := folderLoop sv opts (sv.srt.sort folderLt (selected opts listed))
          { client := client', spool, writer })
      rw [folderLoop_outcome hc hl hb hdir] at hmig
      have hstart : RunState.outcome ({ client := client', spool, writer } : RunState C F W) =
          ⟨writer, [], 0, [], [], [], 0⟩ := rfl
      rw [hstart] at hmig
      simp only [migrate, ← hmig]
      rfl

end Refinement

/-! ## Batching is invisible -/

/-- A transport whose listings are fixed. -/
structure ListsFixed {T : Type} (tr : TransportOps T) (folders : Except String Bytes)
    (listing : Bytes → Except String Bytes) : Prop where
  folders : ∀ t, ∃ t', tr.command t [] ImapClient.listFoldersCommand = (folders, t')
  messages : ∀ t mailbox, ∃ t',
    tr.command t mailbox ImapClient.listMessagesCommand = (listing mailbox, t')

theorem ops_lists {T : Type} (srt : StdSort) {tr : TransportOps T} {folders : Except String Bytes}
    {listing : Bytes → Except String Bytes} (h : ListsFixed tr folders listing) :
    Lists (ImapClient.ops srt tr) (ImapClient.request (folders, ()) parseListResponse).1
      fun mailbox => (ImapClient.request (listing mailbox, ()) parseFetchResponse).1 where
  folders t := by
    obtain ⟨t', ht⟩ := h.folders t
    refine ⟨t', ?_⟩
    simp only [ImapClient.ops, ImapClient.listFolders, ht]
    cases folders <;> rfl
  messages t mailbox := by
    obtain ⟨t', ht⟩ := h.messages t mailbox
    refine ⟨t', ?_⟩
    simp only [ImapClient.ops, ImapClient.listMessages, ht]
    cases listing mailbox <;> rfl

/-- Services over a transport. -/
def Services.over {T : Type} (sv : Services C F W) (srt : StdSort) (tr : TransportOps T) :
    Services T F W :=
  { sv with client := ImapClient.ops srt tr }

/-- Two runs over the same listings and the same server come to the same, whatever their batch
sizes are, whichever of their batches fail, and whatever those leave out. -/
theorem batching_invisible {T₁ T₂ : Type} (sv : Services C F W) (srt : StdSort)
    (tr₁ : TransportOps T₁) (tr₂ : TransportOps T₂) (mail : Mailboxes)
    (folders : Except String Bytes) (listing : Bytes → Except String Bytes)
    (hserve₁ : Serves tr₁ mail) (hserve₂ : Serves tr₂ mail)
    (hlist₁ : ListsFixed tr₁ folders listing) (hlist₂ : ListsFixed tr₂ folders listing)
    (opts : Options) (hdir : opts.spoolDir = []) (size₁ size₂ bytes₁ bytes₂ : Nat)
    (hsize₁ : 1 ≤ size₁) (hsize₂ : 1 ≤ size₂) (t₁ : T₁) (t₂ : T₂) (spool₁ spool₂ : F) :
    mapState (Option.map RunState.outcome) (run (sv.over srt tr₁)
        { opts with batchSize := size₁, batchBytes := bytes₁ } t₁ spool₁) =
      mapState (Option.map RunState.outcome) (run (sv.over srt tr₂)
        { opts with batchSize := size₂, batchBytes := bytes₂ } t₂ spool₂) := by
  have hone : Honest (sv.over srt tr₁).client mail := ops_honest srt hserve₁
  have htwo : Honest (sv.over srt tr₂).client mail := ops_honest srt hserve₂
  have hlone : Lists (sv.over srt tr₁).client _ _ := ops_lists srt hlist₁
  have hltwo : Lists (sv.over srt tr₂).client _ _ := ops_lists srt hlist₂
  have hdir₁ : { opts with batchSize := size₁, batchBytes := bytes₁ }.spoolDir = [] := hdir
  have hdir₂ : { opts with batchSize := size₂, batchBytes := bytes₂ }.spoolDir = [] := hdir
  rw [run_outcome hone hlone hsize₁ hdir₁, run_outcome htwo hltwo hsize₂ hdir₂]
  rfl

/-! ## A mail server -/

theorem mailServer_lists (folders : Except String Bytes) (listing : Bytes → Except String Bytes)
    (mail : Mailboxes) (batch : Except String Bytes) :
    ListsFixed (mailServer folders listing mail batch) folders listing where
  folders t := ⟨(), by simp [mailServer]⟩
  messages t mailbox := by
    have hne : ImapClient.listMessagesCommand ≠ ImapClient.listFoldersCommand := by decide
    exact ⟨(), by simp [mailServer, hne]⟩

theorem mailServer_serves (folders : Except String Bytes) (listing : Bytes → Except String Bytes)
    (mail : Mailboxes) (lines : Option (List FetchLine))
    (hlen : ∀ ls ∈ lines, (fetchResponse ls).length < 2 ^ 63)
    (hlines : ∀ ls ∈ lines, ∀ l ∈ ls, ∀ mailbox, Carries mail mailbox l) :
    Serves (mailServer folders listing mail
      ((lines.map fetchResponse).elim (.error "NO") .ok)) mail where
  single t mailbox uid := by
    refine ⟨(), ?_⟩
    simp only [mailServer]
    cases mail mailbox uid with
    | none => exact .inr ⟨rfl, _, rfl⟩
    | some octets => exact .inl ⟨octets, rfl, rfl⟩
  batch t mailbox uids := by
    have hfolders : ImapClient.fetchBodiesCommand uids ≠ ImapClient.listFoldersCommand := by
      intro h
      have hhead : (85 : Byte) = 76 := (List.cons.inj h).1
      exact absurd hhead (by decide)
    have hmessages : ImapClient.fetchBodiesCommand uids ≠ ImapClient.listMessagesCommand := by
      intro h
      have hsuffix : str " (UID BODY.PEEK[])" <:+ ImapClient.listMessagesCommand :=
        ⟨_, h⟩
      exact absurd hsuffix (by decide)
    refine ⟨(), ?_⟩
    simp only [mailServer, hfolders, hmessages, if_false]
    cases lines with
    | none => exact .inl ⟨_, rfl⟩
    | some ls => exact .inr ⟨ls, rfl, hlen ls rfl, fun l hl => hlines ls rfl l hl mailbox⟩

/-- A mailbox with one message, and a listing that shows a second one. -/
def oneMail : Mailboxes := fun _ uid => if uid = 1 then some [72, 105] else none

def oneMailLine : FetchLine := { seq := 7, items := [.body [72, 105], .uid 1] }

theorem oneMailLine_carries (mailbox : Bytes) : Carries oneMail mailbox oneMailLine where
  wellFormed := by
    intro item hitem
    rcases List.mem_cons.1 hitem with rfl | hitem
    · trivial
    · obtain rfl := List.mem_singleton.1 hitem
      trivial
  about := ⟨1, [72, 105], rfl, by simp [oneMailLine], by simp [oneMailLine]⟩

def twoListed : Bytes :=
  fetchResponse [{ seq := 1, items := [.uid 1] }, { seq := 2, items := [.uid 2] }]

/-- The theorem at a run whose batches all fail and one whose batches bring the message. -/
theorem oneMail_batching :
    mapState (Option.map RunState.outcome) (run (desk.over .insertion
        (mailServer (.ok (str "* LIST () \"/\" \"INBOX\"\r\n")) (fun _ => .ok twoListed) oneMail
          (.error "NO"))) { batchSize := 1, batchBytes := 0 } () ()) =
      mapState (Option.map RunState.outcome) (run (desk.over .insertion
        (mailServer (.ok (str "* LIST () \"/\" \"INBOX\"\r\n")) (fun _ => .ok twoListed) oneMail
          (.ok (fetchResponse [oneMailLine])))) { batchSize := 50, batchBytes := 4096 } () ()) :=
  batching_invisible desk .insertion _ _ oneMail _ _
    (mailServer_serves _ _ oneMail none (by simp) (by simp))
    (mailServer_serves _ _ oneMail (some [oneMailLine]) (by decide) (by
      rintro _ ⟨⟩ l hl mailbox
      obtain rfl := List.mem_singleton.1 hl
      exact oneMailLine_carries mailbox))
    (mailServer_lists _ _ oneMail _) (mailServer_lists _ _ oneMail _) {} rfl 1 50 0 4096
    (by decide) (by decide) () () () ()

end Pipeline
end Imap2Pst
