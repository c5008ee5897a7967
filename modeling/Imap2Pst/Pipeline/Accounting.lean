import Imap2Pst.Pipeline.Scripted
import Imap2Pst.Pipeline.Slots

/-!
# Pipeline.Accounting

Every listed message is accounted for once: by one `addMessage` that succeeded, or by one entry
of `failed_uids`.

* `Accounts`     — what a stretch of the run adds to the books.
* `runBatch_accounts`, `batchLoop_accounts` — a batch, and a folder, balance.
* `run_accounts_exactly_once` — and so does the run.
-/

namespace Imap2Pst
namespace Pipeline

open CxxStd

variable {C F W : Type}

/-- A place in a listing: the folder and one of its messages. -/
abbrev Position := FolderInfo × MessageMeta

/-- What `failed_uids` keeps of a position. -/
def Position.key (p : Position) : Bytes × UInt32 := (p.1.fullName, p.2.uid)

namespace RunState

/-- Every position of every listing that succeeded, in order. -/
def positions (st : RunState C F W) : List Position :=
  st.listings.flatMap fun l => l.2.map fun m => (l.1, m)

/-- The positions `addMessage` took, in order. -/
def stored (st : RunState C F W) : List Position :=
  (st.attempts.filter (·.stored)).map fun a => (a.folder, a.info)

def failed (st : RunState C F W) : List (Bytes × UInt32) :=
  st.stats.failedUids.map fun f => (f.folder, f.uid)

end RunState

/-! ## The books -/

/-- From `st` to `st'` the positions of `fates` were settled: those marked `true` stored, in this
order, and the others failed, in any order. -/
structure Accounts (st st' : RunState C F W) (fates : List (Position × Bool)) : Prop where
  listings : st'.listings = st.listings
  refused : st'.refused = st.refused
  stored : st'.stored = st.stored ++ (fates.filter (·.2)).map (·.1)
  failed : st'.failed.Perm (st.failed ++ (fates.filter (!·.2)).map (·.1.key))
  messages : st'.stats.messages = st.stats.messages + fates.countP (·.2)
  failedMessages : st'.stats.failedMessages = st.stats.failedMessages + fates.countP (!·.2)

namespace Accounts

variable {st st' st'' : RunState C F W} {fates fates' : List (Position × Bool)}

theorem refl (st : RunState C F W) : Accounts st st [] :=
  ⟨rfl, rfl, by simp, by simp, rfl, rfl⟩

theorem trans (h : Accounts st st' fates) (h' : Accounts st' st'' fates') :
    Accounts st st'' (fates ++ fates') where
  listings := by rw [h'.listings, h.listings]
  refused := by rw [h'.refused, h.refused]
  stored := by rw [h'.stored, h.stored]; simp
  failed := by
    refine h'.failed.trans ?_
    rw [List.filter_append, List.map_append, ← List.append_assoc]
    exact h.failed.append_right _
  messages := by rw [h'.messages, h.messages, List.countP_append]; omega
  failedMessages := by rw [h'.failedMessages, h.failedMessages, List.countP_append]; omega

/-- The order of the failures is of no account. -/
theorem of_perm (h : Accounts st st' fates) (hperm : fates.Perm fates')
    (hstored : fates.filter (·.2) = fates'.filter (·.2)) : Accounts st st' fates' where
  listings := h.listings
  refused := h.refused
  stored := by rw [h.stored, hstored]
  failed := h.failed.trans ((hperm.filter _).map _ |>.append_left _)
  messages := by rw [h.messages, hperm.countP_eq]
  failedMessages := by rw [h.failedMessages, hperm.countP_eq]

end Accounts

theorem RunState.fail_accounts (st : RunState C F W) (folder : FolderInfo) (info : MessageMeta)
    (reason : String) : Accounts st (st.fail folder info reason) [((folder, info), false)] :=
  ⟨rfl, rfl, by simp [RunState.fail, RunState.stored], by simp [RunState.fail, RunState.failed,
    Position.key], rfl, rfl⟩

theorem RunState.keep_accounts (sv : Services C F W) (opts : Options) (folder : FolderInfo)
    (info : MessageMeta) (raw : RawMessage) (st : RunState C F W) :
    Accounts st (st.keep sv opts folder info raw) [] :=
  ⟨rfl, rfl, by simp [RunState.keep, RunState.stored], by simp [RunState.keep, RunState.failed],
    rfl, rfl⟩

theorem RunState.client_accounts (st : RunState C F W) (client : C) :
    Accounts st { st with client } [] :=
  ⟨rfl, rfl, by simp [RunState.stored], by simp [RunState.failed], rfl, rfl⟩

theorem spoolState_accounts (sv : Services C F W) (opts : Options) (folder : FolderInfo)
    (batch : List MessageMeta) (st : RunState C F W) :
    Accounts st (spoolState sv opts folder batch st) [] :=
  ⟨rfl, rfl, by simp [spoolState, RunState.stored], by simp [spoolState, RunState.failed],
    rfl, rfl⟩

/-- A message handed to the parser is stored or fails. -/
theorem handOver_accounts (sv : Services C F W) (folder : FolderInfo) (id : FolderId)
    (info : MessageMeta) (raw : RawMessage) (st : RunState C F W) :
    ∃ fate, Accounts st (handOver sv folder id info raw st) [((folder, info), fate)] := by
  simp only [handOver]
  split
  · refine ⟨false, rfl, rfl, ?_, ?_, rfl, rfl⟩
    · simp [RunState.fail, RunState.stored]
    · simp [RunState.fail, RunState.failed, Position.key]
  · split
    · refine ⟨false, rfl, rfl, ?_, ?_, rfl, rfl⟩
      · simp [RunState.fail, RunState.stored]
      · simp [RunState.fail, RunState.failed, Position.key]
    · refine ⟨true, rfl, rfl, ?_, ?_, rfl, rfl⟩
      · simp [RunState.stored]
      · simp [RunState.failed]

/-! ## One batch -/

/-- The slots the fetch loop gave up. -/
def givenUp (folder : FolderInfo) (slots : List (MessageMeta × RawMessage × Bool)) :
    List (Position × Bool) :=
  (slots.filter (·.2.2)).map fun s => ((folder, s.1), false)

/-- What the fetch loop leaves for the write loop: a slot counted as failed holds no source. -/
def Settled (slots : List (RawMessage × Bool)) : Prop :=
  ∀ s ∈ slots, s.2 = true → s.1.rfc822 = []

theorem fetchSlots_accounts (sv : Services C F W) (opts : Options) (folder : FolderInfo)
    (got : List RawMessage) (size : Nat) :
    ∀ (rest : List (MessageMeta × Option RawMessage)) (i : Nat) (st st' : RunState C F W)
      (out : List (RawMessage × Bool)),
      fetchSlots sv opts folder got size i rest st = (.returns, out, st') →
      out.length = rest.length ∧ Settled out ∧
        Accounts st st' (givenUp folder ((rest.map (·.1)).zip out)) := by
  intro rest
  induction rest with
  | nil =>
    intro i st st' out h
    simp only [fetchSlots, Prod.mk.injEq, true_and] at h
    obtain ⟨rfl, rfl⟩ := h
    exact ⟨rfl, by simp [Settled], .refl st⟩
  | cons slot rest ih =>
    intro i st st' out h
    -- a slot that ends up as `s` and takes the run from `st` to `mid`
    have next : ∀ (s : RawMessage × Bool) (i : Nat) (mid : RunState C F W)
        (r : Ending × List (RawMessage × Bool) × RunState C F W),
        fetchSlots sv opts folder got size i rest mid = r →
        (r.1, s :: r.2.1, r.2.2) = (Ending.returns, out, st') →
        (s.2 = true → s.1.rfc822 = []) →
        Accounts st mid (givenUp folder [(slot.1, s)]) →
        out.length = (slot :: rest).length ∧ Settled out ∧
          Accounts st st' (givenUp folder (((slot :: rest).map (·.1)).zip out)) := by
      rintro s i mid ⟨e, slots, st₁⟩ hr heq hs hmid
      simp only [Prod.mk.injEq] at heq
      obtain ⟨rfl, rfl, rfl⟩ := heq
      obtain ⟨hlen, hset, hacc⟩ := ih i mid st₁ slots hr
      refine ⟨by simp [hlen], ?_, ?_⟩
      · intro t ht
        rcases List.mem_cons.1 ht with rfl | ht
        · exact hs
        · exact hset t ht
      · have hboth := hmid.trans hacc
        rw [givenUp, givenUp, ← List.map_append, ← List.filter_append] at hboth
        exact hboth
    have keeps : ∀ (raw : RawMessage) (client : C),
        Accounts st ({ st with client }.keep sv opts folder slot.1 raw)
          (givenUp folder [(slot.1, raw, false)]) := fun raw client =>
      (st.client_accounts client).trans (RunState.keep_accounts sv opts folder slot.1 raw _)
    obtain ⟨info, _ | raw⟩ := slot
    · simp only [fetchSlots] at h
      split at h
      · exact next _ _ _ _ rfl h (by simp) (keeps _ st.client)
      · split at h
        · exact next _ _ _ _ rfl h (by simp) (keeps _ _)
        · exact next _ _ _ _ rfl h (by simp)
            ((st.client_accounts _).trans (RunState.fail_accounts _ folder info _))
        · cases h
        · cases h
    · simp only [fetchSlots] at h
      exact next (raw, false) _ _ _ rfl h (by simp) (.refl st)

/-- The write loop settles every slot that has not been given up. -/
theorem writePass_accounts (sv : Services C F W) (folder : FolderInfo) (id : FolderId) :
    ∀ (slots : List (MessageMeta × RawMessage × Bool)) (st : RunState C F W),
      (∀ s ∈ slots, s.2.2 = true → s.2.1.rfc822 = []) →
      ∃ fates : List (Position × Bool),
        fates.map (·.1) = (slots.filter (!·.2.2)).map (fun s => (folder, s.1)) ∧
        Accounts st (writePass sv folder id slots st) fates := by
  intro slots
  induction slots with
  | nil => exact fun st _ => ⟨[], rfl, .refl st⟩
  | cons s slots ih =>
    intro st hset
    obtain ⟨info, raw, accounted⟩ := s
    have hrest : ∀ s ∈ slots, s.2.2 = true → s.2.1.rfc822 = [] :=
      fun s hs => hset s (List.mem_cons_of_mem _ hs)
    simp only [writePass]
    split
    · cases accounted with
      | true =>
        obtain ⟨fates, hmap, hacc⟩ := ih st hrest
        exact ⟨fates, by simpa using hmap, by simpa using hacc⟩
      | false =>
        obtain ⟨fates, hmap, hacc⟩ := ih (st.fail folder info emptyBody) hrest
        refine ⟨((folder, info), false) :: fates, by simp [hmap], ?_⟩
        exact (st.fail_accounts folder info emptyBody).trans hacc
    · rename_i hne
      have hacc : accounted = false := by
        cases accounted with
        | false => rfl
        | true => exact absurd (hset _ List.mem_cons_self rfl) hne
      subst hacc
      obtain ⟨fate, hone⟩ := handOver_accounts sv folder id info raw st
      obtain ⟨fates, hmap, hrest⟩ := ih (handOver sv folder id info raw st) hrest
      exact ⟨((folder, info), fate) :: fates, by simp [hmap], hone.trans hrest⟩

/-- The given-up slots and the fates of the others, put back in the order of the batch. -/
theorem merge_fates (folder : FolderInfo) :
    ∀ (slots : List (MessageMeta × RawMessage × Bool)) (fates : List (Position × Bool)),
      fates.map (·.1) = (slots.filter (!·.2.2)).map (fun s => (folder, s.1)) →
      ∃ merged : List (Position × Bool), merged.map (·.1) = slots.map (fun s => (folder, s.1)) ∧
        (givenUp folder slots ++ fates).Perm merged ∧
        (givenUp folder slots ++ fates).filter (·.2) = merged.filter (·.2) := by
  intro slots
  induction slots with
  | nil =>
    intro fates hmap
    obtain rfl : fates = [] := by simpa using hmap
    exact ⟨[], rfl, by simp [givenUp], by simp [givenUp]⟩
  | cons s slots ih =>
    obtain ⟨info, raw, accounted⟩ := s
    intro fates hmap
    cases accounted with
    | true =>
      obtain ⟨merged, hm, hp, hf⟩ := ih fates (by simpa using hmap)
      refine ⟨((folder, info), false) :: merged, by simp [hm], ?_, ?_⟩
      · simpa [givenUp] using hp
      · simpa [givenUp] using hf
    | false =>
      obtain _ | ⟨f, fates⟩ := fates
      · simp at hmap
      · simp only [List.map_cons, Bool.not_false, List.filter_cons_of_pos, List.cons.injEq] at hmap
        obtain ⟨merged, hm, hp, hf⟩ := ih fates hmap.2
        refine ⟨f :: merged, by simp [hm, hmap.1], ?_, ?_⟩
        · simp only [givenUp, Bool.false_eq_true, not_false_eq_true, List.filter_cons_of_neg] at hp ⊢
          exact List.perm_middle.trans (hp.cons f)
        · have hnone : (givenUp folder slots).filter (·.2) = [] := by simp [givenUp]
          simp only [givenUp, Bool.false_eq_true, not_false_eq_true,
            List.filter_cons_of_neg] at hf hnone ⊢
          rw [List.filter_append, hnone, List.nil_append] at hf ⊢
          rw [List.filter_cons, List.filter_cons, hf]

theorem settle_accounts (sv : Services C F W) (opts : Options) (folder : FolderInfo)
    (slots : List (MessageMeta × Option RawMessage)) (st st' : RunState C F W)
    (out : List (RawMessage × Bool)) (h : settle sv opts folder slots st = (.returns, out, st')) :
    out.length = slots.length ∧ Settled out ∧
      Accounts st st' (givenUp folder ((slots.map (·.1)).zip out)) := by
  have fetched : ∀ (got : List RawMessage) (size : Nat) (client : C),
      fetchSlots sv opts folder got size 0 slots { st with client } = (.returns, out, st') →
      out.length = slots.length ∧ Settled out ∧
        Accounts st st' (givenUp folder ((slots.map (·.1)).zip out)) := by
    intro got size client hf
    obtain ⟨hlen, hset, hacc⟩ := fetchSlots_accounts sv opts folder got size slots 0 _ st' out hf
    exact ⟨hlen, hset, (st.client_accounts client).trans hacc⟩
  simp only [settle] at h
  split at h
  · simp only [Prod.mk.injEq, true_and] at h
    obtain ⟨rfl, rfl⟩ := h
    refine ⟨by simp, ?_, ?_⟩
    · intro s hs hacc
      obtain ⟨_, _, rfl⟩ := List.mem_map.1 hs
      cases hacc
    · have hnone : givenUp folder
          ((slots.map (·.1)).zip (slots.map fun s => (s.2.getD ({} : RawMessage), false))) = [] := by
        rw [List.zip_map']
        simp [givenUp]
      rw [hnone]
      exact .refl st
  · split at h
    · exact fetched _ _ _ h
    · exact fetched _ _ _ h
    · cases h
    · cases h

/-- A batch settles its messages, each one once. -/
theorem runBatch_accounts (sv : Services C F W) (opts : Options) (folder : FolderInfo)
    (id : FolderId) (batch : List MessageMeta) (st st' : RunState C F W)
    (h : runBatch sv opts folder id batch st = (.returns, st')) :
    ∃ fates : List (Position × Bool),
      fates.map (·.1) = batch.map (fun m => (folder, m)) ∧ Accounts st st' fates := by
  rw [runBatch_eq] at h
  have hlen := spoolSlots_length sv opts folder batch st.spool
  generalize hs : settle sv opts folder (batch.zip (spoolSlots sv opts folder batch st.spool).1)
    (spoolState sv opts folder batch st) = r at h
  obtain ⟨e, out, mid⟩ := r
  cases e with
  | throws what => cases h
  | hangs => cases h
  | returns =>
    simp only [Prod.mk.injEq, true_and] at h
    subst h
    obtain ⟨hout, hset, hfetch⟩ := settle_accounts sv opts folder _ _ mid out hs
    rw [List.map_fst_zip (by omega)] at hfetch
    obtain ⟨fates, hmap, hwrite⟩ := writePass_accounts sv folder id (batch.zip out) mid
      fun s hs => hset s.2 (List.of_mem_zip hs).2
    obtain ⟨merged, hm, hperm, hstored⟩ := merge_fates folder (batch.zip out) fates hmap
    refine ⟨merged, ?_, ?_⟩
    · have hfst : (batch.zip out).map (fun s => s.1) = batch :=
        List.map_fst_zip (by simp only [hout, List.length_zip]; omega)
      conv_rhs => rw [← hfst, List.map_map]
      exact hm
    · exact ((spoolState_accounts sv opts folder batch st).trans
        (hfetch.trans hwrite)).of_perm hperm hstored

theorem batchLoop_accounts {sv : Services C F W} {opts : Options} {folder : FolderInfo}
    {id : FolderId} {fuel : Nat} {metas : List MessageMeta} {st st' : RunState C F W}
    (h : batchLoop sv opts folder id fuel metas st = (.returns, st')) :
    ∃ fates : List (Position × Bool),
      fates.map (·.1) = metas.map (fun m => (folder, m)) ∧ Accounts st st' fates := by
  refine batchLoop_rule (R := fun metas st st' => ∃ fates : List (Position × Bool),
    fates.map (·.1) = metas.map (fun m => (folder, m)) ∧ Accounts st st' fates)
    (fun st => ⟨[], rfl, .refl st⟩) ?_ fuel metas st st' h
  rintro batch rest st mid st' hbatch ⟨fates', hmap', hrest⟩
  obtain ⟨fates, hmap, hone⟩ := runBatch_accounts sv opts folder id batch st mid hbatch
  exact ⟨fates ++ fates', by simp [hmap, hmap'], hone.trans hrest⟩

/-! ## Folders -/

/-- The books of a whole run so far. -/
structure Books (st : RunState C F W) (fates : List (Position × Bool)) : Prop where
  stored : st.stored = (fates.filter (·.2)).map (·.1)
  failed : st.failed.Perm ((fates.filter (!·.2)).map (·.1.key))
  messages : st.stats.messages = fates.countP (·.2)
  failedMessages : st.stats.failedMessages = fates.countP (!·.2)

/-- The books show every listed position once. -/
def Balanced (st : RunState C F W) : Prop :=
  ∃ fates : List (Position × Bool), fates.map (·.1) = st.positions ∧ Books st fates

theorem Books.extend {st st' : RunState C F W} {fates fates' : List (Position × Bool)}
    (h : Books st fates) (ha : Accounts st st' fates') : Books st' (fates ++ fates') where
  stored := by rw [ha.stored, h.stored]; simp
  failed := by
    rw [List.filter_append, List.map_append]
    exact ha.failed.trans (h.failed.append_right _)
  messages := by rw [ha.messages, h.messages, List.countP_append]
  failedMessages := by rw [ha.failedMessages, h.failedMessages, List.countP_append]

theorem Balanced.same {st st' : RunState C F W} (h : Balanced st) (ha : Accounts st st' []) :
    Balanced st' := by
  obtain ⟨fates, hmap, hb⟩ := h
  refine ⟨fates, ?_, by simpa using hb.extend ha⟩
  rw [hmap, RunState.positions, RunState.positions, ha.listings]

/-- All that a message listing can do. -/
theorem runListing_cases {sv : Services C F W} {opts : Options} {folder : FolderInfo}
    {id : FolderId} {st st' : RunState C F W} {e : Ending}
    (h : runListing sv opts folder id st = (e, st')) :
    ∃ client,
      (e ≠ .returns ∧ st' = { st with client }) ∨
      (e = .returns ∧ st' = { st with client, refused := st.refused ++ [folder] }) ∨
      ∃ metas, batchLoop sv opts folder id metas.length metas
        { st with client, listings := st.listings ++ [(folder, metas)] } = (e, st') := by
  unfold runListing at h
  split at h
  · exact ⟨_, .inr (.inr ⟨_, h⟩)⟩
  · cases h
    exact ⟨_, .inr (.inl ⟨rfl, rfl⟩)⟩
  · cases h
    exact ⟨_, .inl ⟨by simp, rfl⟩⟩
  · cases h
    exact ⟨_, .inl ⟨by simp, rfl⟩⟩

/-- All that a folder can do. -/
theorem runFolder_cases {sv : Services C F W} {opts : Options} {folder : FolderInfo}
    {st st' : RunState C F W} {e : Ending} (h : runFolder sv opts folder st = (e, st')) :
    (¬ (folder.selectable ∧ folder.path ≠ []) ∧ e = .returns ∧ Accounts st st' []) ∨
    (e ≠ .returns ∧ Accounts st st' []) ∨
    (folder.selectable ∧ folder.path ≠ [] ∧ ∃ mid, Accounts st mid [] ∧
      ((e = .returns ∧ st' = { mid with refused := mid.refused ++ [folder] }) ∨
        ∃ id metas, batchLoop sv opts folder id metas.length metas
          { mid with listings := mid.listings ++ [(folder, metas)] } = (e, st'))) := by
  have opened : ∀ (client : C) (writer : W) (byPath : List (Bytes × FolderId)) (n : Nat),
      Accounts st { st with client, writer, byPath, stats.folders := n } [] := fun _ _ _ _ =>
    ⟨rfl, rfl, by simp [RunState.stored], by simp [RunState.failed], rfl, rfl⟩
  unfold runFolder at h
  split at h
  · rename_i hpath
    cases h
    exact .inl ⟨by simp [hpath], rfl, .refl st⟩
  · rename_i hpath
    split at h
    · cases h
      exact .inr (.inl ⟨by simp, opened _ _ _ _⟩)
    · rename_i id writer byPath _
      by_cases hsel : folder.selectable
      · rw [if_pos hsel] at h
        obtain ⟨client, ⟨he, rfl⟩ | ⟨rfl, rfl⟩ | ⟨metas, hloop⟩⟩ := runListing_cases h
        · exact .inr (.inl ⟨he, opened _ _ _ _⟩)
        · exact .inr (.inr ⟨hsel, hpath, _, opened client _ _ _, .inl ⟨rfl, rfl⟩⟩)
        · exact .inr (.inr ⟨hsel, hpath, _, opened client _ _ _, .inr ⟨id, metas, hloop⟩⟩)
      · rw [if_neg hsel] at h
        cases h
        exact .inl ⟨by simp [hsel], rfl, opened _ _ _ _⟩

/-- A listing whose batch loop returns keeps the books balanced. -/
theorem Balanced.listed {sv : Services C F W} {opts : Options} {folder : FolderInfo} {id : FolderId}
    {metas : List MessageMeta} {mid st' : RunState C F W} (h : Balanced mid)
    (hloop : batchLoop sv opts folder id metas.length metas
      { mid with listings := mid.listings ++ [(folder, metas)] } = (.returns, st')) :
    Balanced st' ∧ st'.listings = mid.listings ++ [(folder, metas)] ∧
      st'.refused = mid.refused := by
  obtain ⟨fates, hmap, hb⟩ := h
  obtain ⟨fates', hmap', ha⟩ := batchLoop_accounts hloop
  have hstart : Books { mid with listings := mid.listings ++ [(folder, metas)] } fates :=
    ⟨hb.stored, hb.failed, hb.messages, hb.failedMessages⟩
  refine ⟨⟨fates ++ fates', ?_, hstart.extend ha⟩, ha.listings, ha.refused⟩
  simp [RunState.positions, ha.listings, hmap', hmap]

theorem Balanced.refuse {mid : RunState C F W} (h : Balanced mid) (folder : FolderInfo) :
    Balanced { mid with refused := mid.refused ++ [folder] } := by
  obtain ⟨fates, hmap, hb⟩ := h
  exact ⟨fates, hmap, ⟨hb.stored, hb.failed, hb.messages, hb.failedMessages⟩⟩

theorem RunState.start_balanced (client : C) (spool : F) (writer : W) :
    Balanced ({ client, spool, writer } : RunState C F W) :=
  ⟨[], rfl, ⟨rfl, .refl _, rfl, rfl⟩⟩

theorem finishWriter_accounts (sv : Services C F W) (st : RunState C F W) :
    Accounts st (finishWriter sv st).2 [] := by
  unfold finishWriter
  split <;> exact ⟨rfl, rfl, by simp [RunState.stored], by simp [RunState.failed], rfl, rfl⟩

/-- A run that got as far as opening the writer is a `migrate`. -/
theorem run_eq_some {sv : Services C F W} {opts : Options} {client : C} {spool : F} {e : Ending}
    {st : RunState C F W} (h : run sv opts client spool = (e, some st)) :
    ∃ listed client' writer, sv.client.listFolders client = (.ok listed, client') ∧
      sv.writer.create opts.outputPath = .ok writer ∧
      migrate sv opts listed { client := client', spool, writer } = (e, st) := by
  unfold run at h
  split at h
  · cases h
  · cases h
  · rename_i listed client' hlist
    split at h
    · cases h
    · rename_i writer hcreate
      simp only [Prod.mk.injEq, Option.some.injEq] at h
      exact ⟨listed, client', writer, hlist, hcreate, Prod.ext h.1 h.2⟩

/-! ## Exactly once -/

/-- Fetches come back, with an answer or an `ImapError`. -/
structure FetchesAnswer (client : ClientOps C) : Prop where
  batch : ∀ c mailbox metas, ∃ c',
    (∃ got, client.fetchMessages c mailbox metas = (.ok got, c')) ∨
      ∃ what, client.fetchMessages c mailbox metas = (.throws (.imapError what), c')
  single : ∀ c mailbox info, ∃ c',
    (∃ raw, client.fetchMessage c mailbox info = (.ok raw, c')) ∨
      ∃ what, client.fetchMessage c mailbox info = (.throws (.imapError what), c')

theorem fetchSlots_returns {sv : Services C F W} (hf : FetchesAnswer sv.client) (opts : Options)
    (folder : FolderInfo) (got : List RawMessage) (size : Nat) :
    ∀ (rest : List (MessageMeta × Option RawMessage)) (i : Nat) (st : RunState C F W),
      (fetchSlots sv opts folder got size i rest st).1 = .returns := by
  intro rest
  induction rest with
  | nil => exact fun _ _ => rfl
  | cons slot rest ih =>
    intro i st
    obtain ⟨info, _ | raw⟩ := slot
    · simp only [fetchSlots]
      split
      · exact ih _ _
      · obtain ⟨c', ⟨raw, h⟩ | ⟨what, h⟩⟩ := hf.single st.client folder.rawName info
        · rw [h]; exact ih _ _
        · rw [h]; exact ih _ _
    · exact ih _ _

theorem runBatch_returns {sv : Services C F W} (hf : FetchesAnswer sv.client) (opts : Options)
    (folder : FolderInfo) (id : FolderId) (batch : List MessageMeta) (st : RunState C F W) :
    ∃ st', runBatch sv opts folder id batch st = (.returns, st') := by
  rw [runBatch_eq]
  generalize spoolState sv opts folder batch st = mid
  generalize batch.zip (spoolSlots sv opts folder batch st.spool).1 = slots
  have hret : (settle sv opts folder slots mid).1 = .returns := by
    simp only [settle]
    split
    · rfl
    · obtain ⟨c', ⟨got, h⟩ | ⟨what, h⟩⟩ := hf.batch mid.client folder.rawName
        ((wantedFrom 0 slots).map (·.1))
      · rw [h]; exact fetchSlots_returns hf _ _ _ _ _ _ _
      · rw [h]; exact fetchSlots_returns hf _ _ _ _ _ _ _
  generalize settle sv opts folder slots mid = r at hret
  obtain ⟨e, out, st'⟩ := r
  obtain rfl : e = .returns := hret
  exact ⟨_, rfl⟩

/-- Under fetches that answer, a folder keeps the books balanced however it ends. -/
theorem runFolder_balanced {sv : Services C F W} {opts : Options} (hb : 1 ≤ opts.batchSize)
    (hf : FetchesAnswer sv.client) (folder : FolderInfo) (st : RunState C F W)
    (h : Balanced st) : Balanced (runFolder sv opts folder st).2 := by
  generalize hr : runFolder sv opts folder st = r
  obtain ⟨e, st'⟩ := r
  obtain ⟨-, -, ha⟩ | ⟨-, ha⟩ | ⟨-, -, mid, ha, ⟨-, rfl⟩ | ⟨id, metas, hloop⟩⟩ :=
    runFolder_cases hr
  · exact h.same ha
  · exact h.same ha
  · exact (h.same ha).refuse folder
  · obtain ⟨st'', hret⟩ := batchLoop_returns hb (runBatch_returns hf opts folder id) metas.length
      metas { mid with listings := mid.listings ++ [(folder, metas)] } le_rfl
    rw [hret, Prod.mk.injEq] at hloop
    obtain ⟨rfl, rfl⟩ := hloop
    exact ((h.same ha).listed hret).1

/-- The batch loop ends, and every position of every listing comes to one successful `addMessage`
or one failed UID, whichever way the run ends. -/
theorem run_accounts_exactly_once (sv : Services C F W) (opts : Options)
    (hb : 1 ≤ opts.batchSize) (hf : FetchesAnswer sv.client) :
    (∀ folder id metas st, ∃ st',
      batchLoop sv opts folder id metas.length metas st = (.returns, st')) ∧
    ∀ client spool e st, run sv opts client spool = (e, some st) →
      (∃ fates : List (Position × Bool), fates.map (·.1) = st.positions ∧
        st.stored = (fates.filter (·.2)).map (·.1) ∧
        st.failed.Perm ((fates.filter (!·.2)).map (·.1.key))) ∧
      st.stats.messages + st.stats.failedMessages = st.positions.length ∧
      st.stats.failedUids.length = st.stats.failedMessages := by
  refine ⟨fun folder id metas st => batchLoop_returns hb (runBatch_returns hf opts folder id)
    metas.length metas st le_rfl, ?_⟩
  intro client spool e st hrun
  obtain ⟨listed, client', writer, -, -, hmig⟩ := run_eq_some hrun
  have hbal : Balanced (migrate sv opts listed { client := client', spool, writer }).2 :=
    andThen_invariant
      (folderLoop_invariant (runFolder_balanced hb hf) _ _ (RunState.start_balanced _ _ _))
      fun s hs => hs.same (finishWriter_accounts sv s)
  rw [hmig] at hbal
  obtain ⟨fates, hmap, hbooks⟩ := hbal
  refine ⟨⟨fates, hmap, hbooks.stored, hbooks.failed⟩, ?_, ?_⟩
  · have hsplit := List.length_eq_countP_add_countP (fun f : Position × Bool => f.2) (l := fates)
    have hneg : (fun f : Position × Bool => decide ¬ f.2 = true) = fun f => !f.2 := by
      funext f
      cases f.2 <;> rfl
    rw [← hmap, List.length_map, hbooks.messages, hbooks.failedMessages, hsplit, hneg]
  · have hlen := hbooks.failed.length_eq
    rw [hbooks.failedMessages, List.countP_eq_length_filter]
    simpa [RunState.failed] using hlen

theorem oneByOne_answers (folders : List FolderInfo) (metas : Bytes → List MessageMeta)
    (body : Bytes → UInt32 → Option Bytes) : FetchesAnswer (oneByOne folders metas body) where
  batch _ _ _ := ⟨(), .inr ⟨_, rfl⟩⟩
  single _ mailbox info := by
    simp only [oneByOne]
    split
    · exact ⟨(), .inl ⟨_, rfl⟩⟩
    · exact ⟨(), .inr ⟨_, rfl⟩⟩

/-- A folder of two messages, one of which the server has lost. -/
def twoMessages : ClientOps Unit :=
  oneByOne [{ fullName := [65], rawName := [65] }] (fun _ => [{ uid := 1 }, { uid := 2 }])
    fun _ uid => if uid = 1 then some [72, 105] else none

theorem twoMessages_answers : FetchesAnswer twoMessages := oneByOne_answers _ _ _

theorem twoMessages_accounted :
    (∀ folder id metas st, ∃ st',
      batchLoop (onto twoMessages) {} folder id metas.length metas st = (.returns, st')) ∧
    ∀ client spool e st, run (onto twoMessages) {} client spool = (e, some st) →
      (∃ fates : List (Position × Bool), fates.map (·.1) = st.positions ∧
        st.stored = (fates.filter (·.2)).map (·.1) ∧
        st.failed.Perm ((fates.filter (!·.2)).map (·.1.key))) ∧
      st.stats.messages + st.stats.failedMessages = st.positions.length ∧
      st.stats.failedUids.length = st.stats.failedMessages :=
  run_accounts_exactly_once (onto twoMessages) {} (by decide) twoMessages_answers

end Pipeline
end Imap2Pst
