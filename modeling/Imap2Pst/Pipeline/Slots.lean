import Imap2Pst.Pipeline.Run

/-!
# Pipeline.Slots

The batch loop without its index vectors. A batch is a list of slots, one per message; the spool
loop fills some of them, and the fetch loop fills or gives up each of the others, in order.

* `spoolPass_eq` — the spool loop computes `spoolSlots`.
* `fetchPass_eq` — the fetch loop over `wanted` and `wanted_at` computes `fetchSlots`.
* `runBatch_eq`  — so a batch is `fetchSlots` followed by the write loop over the slots.
* `batchLoop_rule`, `folderLoop_rule` — induction over the batches of a folder and over folders.
-/

namespace Imap2Pst
namespace Pipeline

open CxxStd

variable {C F W : Type}

/-- What the spool holds for each message, and the spool after it has been asked. -/
def spoolSlots (sv : Services C F W) (opts : Options) (folder : FolderInfo) :
    List MessageMeta → F → List (Option RawMessage) × F
  | [], f => ([], f)
  | m :: rest, f =>
    if opts.spoolDir = [] then
      let (slots, f) := spoolSlots sv opts folder rest f
      (none :: slots, f)
    else
      let (cached, f) := sv.spool.readFile f (spoolPath opts.spoolDir folder.fullName m.uid)
      let (slots, f) := spoolSlots sv opts folder rest f
      ((if cached = [] then none else some (ImapClient.rawOf m cached)) :: slots, f)

/-- The messages of empty slots with their positions, counted from `p`. -/
def wantedFrom (p : Nat) : List (MessageMeta × Option RawMessage) → List (MessageMeta × Nat)
  | [] => []
  | (m, none) :: rest => (m, p) :: wantedFrom (p + 1) rest
  | (_, some _) :: rest => wantedFrom (p + 1) rest

def served (slots : List (Option RawMessage)) : Nat := slots.countP Option.isSome

@[simp] theorem served_nil : served [] = 0 := rfl
@[simp] theorem served_none (slots : List (Option RawMessage)) :
    served (none :: slots) = served slots := by simp [served]
@[simp] theorem served_some (r : RawMessage) (slots : List (Option RawMessage)) :
    served (some r :: slots) = served slots + 1 := by simp [served]

theorem spoolSlots_length (sv : Services C F W) (opts : Options) (folder : FolderInfo) :
    ∀ (batch : List MessageMeta) (f : F),
      (spoolSlots sv opts folder batch f).1.length = batch.length := by
  intro batch
  induction batch with
  | nil => intro f; rfl
  | cons m rest ih =>
    intro f
    simp only [spoolSlots]
    split <;> simp [ih]

theorem spoolPass_eq (sv : Services C F W) (opts : Options) (folder : FolderInfo) :
    ∀ (rest : List MessageMeta) (done : List RawMessage) (b : Batch) (st : RunState C F W),
      b.raws = done ++ List.replicate rest.length ({} : RawMessage) →
      b.wanted.length = b.wantedAt.length →
      ∃ wanted wantedAt,
        wanted.zip wantedAt =
          wantedFrom done.length (rest.zip (spoolSlots sv opts folder rest st.spool).1) ∧
        wanted.length = wantedAt.length ∧
        spoolPass sv opts folder done.length rest (b, st) =
          ({ b with
              raws := done ++ (spoolSlots sv opts folder rest st.spool).1.map (·.getD ({} : RawMessage))
              wanted := b.wanted ++ wanted
              wantedAt := b.wantedAt ++ wantedAt },
            { st with
              spool := (spoolSlots sv opts folder rest st.spool).2
              stats.reusedMessages := st.stats.reusedMessages +
                served (spoolSlots sv opts folder rest st.spool).1 }) := by
  intro rest
  induction rest with
  | nil =>
    intro done b st hraws _
    refine ⟨[], [], rfl, rfl, ?_⟩
    simp only [spoolPass, spoolSlots, List.length_nil, List.replicate_zero, List.append_nil,
      List.map_nil, served_nil, Nat.add_zero] at hraws ⊢
    rw [← hraws]
  | cons m rest ih =>
    intro done b st hraws hlen
    have hdone : (done ++ [({} : RawMessage)]).length = done.length + 1 := by simp
    -- a message that goes into `wanted`, whatever state the spool is in
    have want : ∀ st' : RunState C F W,
        ∃ wanted wantedAt,
          wanted.zip wantedAt = wantedFrom done.length
            ((m :: rest).zip (none :: (spoolSlots sv opts folder rest st'.spool).1)) ∧
          wanted.length = wantedAt.length ∧
          spoolPass sv opts folder (done.length + 1) rest
              ({ b with wanted := b.wanted ++ [m], wantedAt := b.wantedAt ++ [done.length] }, st') =
            ({ b with
                raws := done ++ ({} : RawMessage) ::
                  (spoolSlots sv opts folder rest st'.spool).1.map (·.getD ({} : RawMessage))
                wanted := b.wanted ++ wanted
                wantedAt := b.wantedAt ++ wantedAt },
              { st' with
                spool := (spoolSlots sv opts folder rest st'.spool).2
                stats.reusedMessages := st'.stats.reusedMessages +
                  served (spoolSlots sv opts folder rest st'.spool).1 }) := by
      intro st'
      obtain ⟨wanted, wantedAt, hzip, hwl, heq⟩ := ih (done ++ [({} : RawMessage)])
        { b with wanted := b.wanted ++ [m], wantedAt := b.wantedAt ++ [done.length] } st'
        (by rw [hraws]; simp [List.replicate_succ]) (by simp [hlen])
      rw [hdone] at hzip heq
      refine ⟨m :: wanted, done.length :: wantedAt, ?_, by simp [hwl], ?_⟩
      · simp [wantedFrom, hzip]
      · rw [heq]; simp
    by_cases hdir : opts.spoolDir = []
    · obtain ⟨wanted, wantedAt, hzip, hwl, heq⟩ := want st
      refine ⟨wanted, wantedAt, ?_, hwl, ?_⟩
      · simpa [spoolSlots, hdir] using hzip
      · simp only [spoolPass, hdir, spoolSlots, if_true]
        rw [heq]
        simp
    · obtain ⟨cached, f, hread⟩ : ∃ c f, sv.spool.readFile st.spool
          (spoolPath opts.spoolDir folder.fullName m.uid) = (c, f) := ⟨_, _, rfl⟩
      by_cases hc : cached = []
      · obtain ⟨wanted, wantedAt, hzip, hwl, heq⟩ := want { st with spool := f }
        refine ⟨wanted, wantedAt, ?_, hwl, ?_⟩
        · simpa [spoolSlots, hdir, hread, hc] using hzip
        · simp only [spoolPass, hdir, hread, hc, spoolSlots, if_true, if_false]
          rw [heq]
          simp
      · obtain ⟨wanted, wantedAt, hzip, hwl, heq⟩ := ih (done ++ [ImapClient.rawOf m cached])
          { b with raws := b.raws.set done.length (ImapClient.rawOf m cached) }
          { st with spool := f, stats.reusedMessages := st.stats.reusedMessages + 1 }
          (by rw [hraws]; simp [List.replicate_succ]) hlen
        refine ⟨wanted, wantedAt, ?_, hwl, ?_⟩
        · simpa [spoolSlots, hdir, hread, hc, wantedFrom] using hzip
        · simp only [spoolPass, hdir, hread, hc, spoolSlots, if_false]
          rw [List.length_append, List.length_singleton] at heq
          rw [heq]
          simp [Nat.add_assoc, Nat.add_comm 1]

/-- The fetch loop over slots. A slot comes out as the raw message in it and whether the message
has been counted as failed; a run that ends leaves the slots it has not reached as they are. -/
def fetchSlots (sv : Services C F W) (opts : Options) (folder : FolderInfo)
    (got : List RawMessage) (size : Nat) :
    Nat → List (MessageMeta × Option RawMessage) → RunState C F W →
      Ending × List (RawMessage × Bool) × RunState C F W
  | _, [], st => (.returns, [], st)
  | i, (_, some raw) :: rest, st =>
    let (e, out, st) := fetchSlots sv opts folder got size i rest st
    (e, (raw, false) :: out, st)
  | i, (info, none) :: rest, st =>
    let body := got.getD i ({} : RawMessage)
    if got.length = size ∧ body.rfc822 ≠ [] then
      let (e, out, st) :=
        fetchSlots sv opts folder got size (i + 1) rest (st.keep sv opts folder info body)
      (e, (body, false) :: out, st)
    else
      match sv.client.fetchMessage st.client folder.rawName info with
      | (.ok raw, client) =>
        let (e, out, st) := fetchSlots sv opts folder got size (i + 1) rest
          ({ st with client }.keep sv opts folder info raw)
        (e, (raw, false) :: out, st)
      | (.throws (.imapError what), client) =>
        let (e, out, st) := fetchSlots sv opts folder got size (i + 1) rest
          ({ st with client }.fail folder info what)
        (e, (({} : RawMessage), true) :: out, st)
      | (.throws e, client) =>
        (.throws e.what, (({} : RawMessage), false) ::
          rest.map fun s => (s.2.getD ({} : RawMessage), false), { st with client })
      | (.hangs, client) =>
        (.hangs, (({} : RawMessage), false) ::
          rest.map fun s => (s.2.getD ({} : RawMessage), false), { st with client })

/-- The slots of a batch as the vectors of the source. -/
def Batch.ofSlots (b : Batch) (slots : List (RawMessage × Bool)) : Batch :=
  { b with raws := slots.map (·.1), accounted := slots.map (·.2) }

theorem fetchPass_eq (sv : Services C F W) (opts : Options) (folder : FolderInfo)
    (got : List RawMessage) (size : Nat) :
    ∀ (rest : List (MessageMeta × Option RawMessage)) (done : List (RawMessage × Bool)) (i : Nat)
      (b : Batch) (st : RunState C F W),
      fetchPass sv opts folder got size i (wantedFrom done.length rest)
          (b.ofSlots (done ++ rest.map fun s => (s.2.getD ({} : RawMessage), false)), st) =
        ((fetchSlots sv opts folder got size i rest st).1,
          b.ofSlots (done ++ (fetchSlots sv opts folder got size i rest st).2.1),
          (fetchSlots sv opts folder got size i rest st).2.2) := by
  intro rest
  induction rest with
  | nil => intro done i b st; simp [wantedFrom, fetchPass, fetchSlots]
  | cons slot rest ih =>
    intro done i b st
    -- one slot settled, the loop goes on behind it
    have next : ∀ (s : RawMessage × Bool) (i : Nat) (st' : RunState C F W),
        fetchPass sv opts folder got size i (wantedFrom (done.length + 1) rest)
            (b.ofSlots (done ++ s :: rest.map fun s => (s.2.getD ({} : RawMessage), false)), st') =
          ((fetchSlots sv opts folder got size i rest st').1,
            b.ofSlots (done ++ s :: (fetchSlots sv opts folder got size i rest st').2.1),
            (fetchSlots sv opts folder got size i rest st').2.2) := by
      intro s i st'
      have h := ih (done ++ [s]) i b st'
      simpa using h
    have put : ∀ raw : RawMessage,
        { b.ofSlots (done ++ (({} : RawMessage), false) ::
            rest.map fun s => (s.2.getD ({} : RawMessage), false)) with
          raws := (b.ofSlots (done ++ (({} : RawMessage), false) ::
            rest.map fun s => (s.2.getD ({} : RawMessage), false))).raws.set done.length raw } =
        b.ofSlots (done ++ (raw, false) :: rest.map fun s => (s.2.getD ({} : RawMessage), false)) := by
      intro raw
      simp [Batch.ofSlots, List.set_append_right]
    have mark :
        { b.ofSlots (done ++ (({} : RawMessage), false) ::
            rest.map fun s => (s.2.getD ({} : RawMessage), false)) with
          accounted := (b.ofSlots (done ++ (({} : RawMessage), false) ::
            rest.map fun s => (s.2.getD ({} : RawMessage), false))).accounted.set done.length true } =
        b.ofSlots (done ++ (({} : RawMessage), true) ::
          rest.map fun s => (s.2.getD ({} : RawMessage), false)) := by
      simp [Batch.ofSlots, List.set_append_right]
    obtain ⟨info, _ | raw⟩ := slot
    · simp only [wantedFrom, fetchPass, fetchSlots, List.map_cons, Option.getD_none]
      split
      · rw [put, next]
      · cases hf : sv.client.fetchMessage st.client folder.rawName info with
        | mk reply client =>
          cases reply with
          | ok raw => simp only []; rw [put, next]
          | throws e =>
            cases e with
            | imapError what => simp only []; rw [mark, next]
            | outOfRange what => rfl
          | hangs => rfl
    · simp only [wantedFrom, fetchSlots, List.map_cons, Option.getD_some]
      exact next (raw, false) i st

/-- The slots a batch ends up with; the batched fetch is made only when something is wanted. -/
def settle (sv : Services C F W) (opts : Options) (folder : FolderInfo)
    (slots : List (MessageMeta × Option RawMessage)) (st : RunState C F W) :
    Ending × List (RawMessage × Bool) × RunState C F W :=
  let wanted := (wantedFrom 0 slots).map (·.1)
  if wanted = [] then (.returns, slots.map fun s => (s.2.getD ({} : RawMessage), false), st)
  else
    match sv.client.fetchMessages st.client folder.rawName wanted with
    | (.ok got, client) => fetchSlots sv opts folder got wanted.length 0 slots { st with client }
    | (.throws (.imapError _), client) =>
      fetchSlots sv opts folder (List.replicate wanted.length {}) wanted.length 0 slots
        { st with client }
    | (.throws e, client) =>
      (.throws e.what, slots.map fun s => (s.2.getD ({} : RawMessage), false), { st with client })
    | (.hangs, client) =>
      (.hangs, slots.map fun s => (s.2.getD ({} : RawMessage), false), { st with client })

/-- The spool part of a batch: the slots it fills, and the state after it. -/
def spoolState (sv : Services C F W) (opts : Options) (folder : FolderInfo)
    (batch : List MessageMeta) (st : RunState C F W) : RunState C F W :=
  { st with
    spool := (spoolSlots sv opts folder batch st.spool).2
    stats.reusedMessages := st.stats.reusedMessages +
      served (spoolSlots sv opts folder batch st.spool).1 }

/-- A batch, slot by slot. -/
theorem runBatch_eq (sv : Services C F W) (opts : Options) (folder : FolderInfo) (id : FolderId)
    (batch : List MessageMeta) (st : RunState C F W) :
    runBatch sv opts folder id batch st =
      match settle sv opts folder (batch.zip (spoolSlots sv opts folder batch st.spool).1)
        (spoolState sv opts folder batch st) with
      | (.returns, slots, st) => (.returns, writePass sv folder id (batch.zip slots) st)
      | (e, _, st) => (e, st) := by
  obtain ⟨wanted, wantedAt, hzip, hwl, hpass⟩ := spoolPass_eq sv opts folder batch []
    { raws := List.replicate batch.length {}, accounted := List.replicate batch.length false } st
    (by simp) rfl
  set found := (spoolSlots sv opts folder batch st.spool).1 with hfound
  have hlen : found.length = batch.length := spoolSlots_length sv opts folder batch st.spool
  simp only [List.length_nil, List.nil_append] at hzip hpass
  have hw : (wantedFrom 0 (batch.zip found)).map (·.1) = wanted := by
    rw [← hzip, List.map_fst_zip (by omega)]
  let b : Batch := { raws := [], accounted := [], wanted, wantedAt }
  have hb :
      { b with
        raws := found.map (·.getD ({} : RawMessage))
        accounted := List.replicate batch.length false } =
      b.ofSlots ([] ++ (batch.zip found).map fun s => (s.2.getD ({} : RawMessage), false)) := by
    have h1 : (batch.zip found).map (fun s => s.2.getD ({} : RawMessage)) =
        found.map (·.getD ({} : RawMessage)) := by
      rw [← Function.comp_def (fun o : Option RawMessage => o.getD {}) Prod.snd, ← List.map_map,
        List.map_snd_zip (by omega)]
    have h2 : (batch.zip found).map (fun _ => false) = List.replicate batch.length false := by
      simp [hlen]
    simp only [Batch.ofSlots, List.nil_append, List.map_map, Function.comp_def, b, h1, h2]
  have hzipOf : ∀ slots : List (RawMessage × Bool),
      (slots.map (·.1)).zip (slots.map (·.2)) = slots := by
    intro slots
    induction slots with
    | nil => rfl
    | cons s slots ih => simp [ih]
  unfold runBatch
  simp only [hpass]
  rw [hb]
  unfold fetchWanted settle
  simp only [hw, Batch.ofSlots, b, hzip]
  by_cases hnil : wanted = []
  · simp only [hnil, if_true, List.nil_append, hzipOf]
    rfl
  · have hp : ∀ (got : List RawMessage) (st' : RunState C F W),
        fetchPass sv opts folder got wanted.length 0 (wantedFrom 0 (batch.zip found))
          (b.ofSlots ([] ++ (batch.zip found).map fun s => (s.2.getD ({} : RawMessage), false)),
            st') = _ :=
      fun got st' => fetchPass_eq sv opts folder got wanted.length (batch.zip found) [] 0 b st'
    simp only [Batch.ofSlots, b, List.nil_append] at hp
    simp only [hnil, if_false, List.nil_append]
    cases hf : sv.client.fetchMessages st.client folder.rawName wanted with
    | mk reply client =>
      have hf' : sv.client.fetchMessages (spoolState sv opts folder batch st).client
          folder.rawName wanted = (reply, client) := hf
      rw [hf']
      cases reply with
      | ok got =>
        simp only [hp]
        cases he : (fetchSlots sv opts folder got wanted.length 0 (batch.zip found)
          { (spoolState sv opts folder batch st) with client := client }) with
        | mk e r =>
          obtain ⟨slots, st'⟩ := r
          simp only [spoolState, ← hfound] at he
          simp only [he]
          cases e <;> simp [hzipOf]
      | throws e =>
        cases e with
        | imapError what =>
          simp only [hp]
          cases he : (fetchSlots sv opts folder (List.replicate wanted.length {}) wanted.length 0
            (batch.zip found) { (spoolState sv opts folder batch st) with client := client }) with
          | mk e r =>
            obtain ⟨slots, st'⟩ := r
            simp only [spoolState, ← hfound] at he
            simp only [he]
            cases e <;> simp [hzipOf]
        | outOfRange what => rfl
      | hangs => rfl

/-! ## The loops -/

/-- From `st` to `st'` nothing was handed over, and no folder made. -/
def RunState.Fetched (st st' : RunState C F W) : Prop :=
  ∃ client spool stats, st' = { st with client, spool, stats }

theorem RunState.Fetched.refl (st : RunState C F W) : st.Fetched st :=
  ⟨st.client, st.spool, st.stats, rfl⟩

theorem RunState.Fetched.trans {st mid st' : RunState C F W} (h : st.Fetched mid)
    (h' : mid.Fetched st') : st.Fetched st' := by
  obtain ⟨_, _, _, rfl⟩ := h
  obtain ⟨client, spool, stats, rfl⟩ := h'
  exact ⟨client, spool, stats, rfl⟩

theorem fetchSlots_fetched (sv : Services C F W) (opts : Options) (folder : FolderInfo)
    (got : List RawMessage) (size : Nat) :
    ∀ (rest : List (MessageMeta × Option RawMessage)) (i : Nat) (st : RunState C F W),
      st.Fetched (fetchSlots sv opts folder got size i rest st).2.2 := by
  intro rest
  induction rest with
  | nil => exact fun _ st => .refl st
  | cons slot rest ih =>
    intro i st
    obtain ⟨info, _ | raw⟩ := slot
    · simp only [fetchSlots]
      split
      · exact .trans ⟨_, _, _, rfl⟩ (ih _ _)
      · split
        · exact .trans ⟨_, _, _, rfl⟩ (ih _ _)
        · exact .trans ⟨_, _, _, rfl⟩ (ih _ _)
        · exact ⟨_, _, _, rfl⟩
        · exact ⟨_, _, _, rfl⟩
    · exact ih _ _

/-- However a batch ends, its fetches only change the client, the spool and the statistics. -/
theorem settle_fetched (sv : Services C F W) (opts : Options) (folder : FolderInfo)
    (slots : List (MessageMeta × Option RawMessage)) (st : RunState C F W) :
    st.Fetched (settle sv opts folder slots st).2.2 := by
  simp only [settle]
  split
  · exact .refl st
  · split
    · exact .trans ⟨_, _, _, rfl⟩ (fetchSlots_fetched ..)
    · exact .trans ⟨_, _, _, rfl⟩ (fetchSlots_fetched ..)
    · exact ⟨_, _, _, rfl⟩
    · exact ⟨_, _, _, rfl⟩

/-- A batch fetches, and what it goes on to hand over when that returns. -/
theorem runBatch_cases (sv : Services C F W) (opts : Options) (folder : FolderInfo) (id : FolderId)
    (batch : List MessageMeta) (st : RunState C F W) :
    ∃ mid, st.Fetched mid ∧
      ((∃ e, e ≠ .returns ∧ runBatch sv opts folder id batch st = (e, mid)) ∨
        ∃ slots, runBatch sv opts folder id batch st =
          (.returns, writePass sv folder id slots mid)) := by
  have hspool : st.Fetched (spoolState sv opts folder batch st) := ⟨_, _, _, rfl⟩
  have hsettle := settle_fetched sv opts folder
    (batch.zip (spoolSlots sv opts folder batch st.spool).1) (spoolState sv opts folder batch st)
  rw [runBatch_eq]
  generalize settle sv opts folder (batch.zip (spoolSlots sv opts folder batch st.spool).1)
    (spoolState sv opts folder batch st) = settled at hsettle
  obtain ⟨e, slots, mid⟩ := settled
  refine ⟨mid, hspool.trans hsettle, ?_⟩
  cases e with
  | returns => exact .inr ⟨_, rfl⟩
  | throws what => exact .inl ⟨_, by simp, rfl⟩
  | hangs => exact .inl ⟨_, by simp, rfl⟩

theorem takeBatch_eq (opts : Options) : ∀ (rest batch : List MessageMeta) (bytes : Nat),
    ∃ k, takeBatch opts batch bytes rest = batch ++ rest.take k := by
  intro rest
  induction rest with
  | nil => exact fun batch _ => ⟨0, by simp [takeBatch]⟩
  | cons m rest ih =>
    intro batch bytes
    simp only [takeBatch]
    split
    · split
      · exact ⟨0, by simp⟩
      · obtain ⟨k, hk⟩ := ih (batch ++ [m]) (bytes + m.size.toNat)
        exact ⟨k + 1, by rw [hk]; simp⟩
    · exact ⟨0, by simp⟩

/-- A batch is a prefix of what is left. -/
theorem takeBatch_append_drop (opts : Options) (rest : List MessageMeta) :
    takeBatch opts [] 0 rest ++ rest.drop (takeBatch opts [] 0 rest).length = rest := by
  obtain ⟨k, hk⟩ := takeBatch_eq opts rest [] 0
  rw [hk, List.nil_append, List.length_take]
  rcases le_total k rest.length with h | h
  · rw [Nat.min_eq_left h, List.take_append_drop]
  · rw [Nat.min_eq_right h, List.take_of_length_le h, List.drop_length, List.append_nil]

/-- A batch takes at least one message, however large. -/
theorem takeBatch_length_pos (opts : Options) (hb : 1 ≤ opts.batchSize) (m : MessageMeta)
    (rest : List MessageMeta) : 1 ≤ (takeBatch opts [] 0 (m :: rest)).length := by
  simp only [takeBatch, List.length_nil]
  rw [if_pos (by omega), if_neg (by simp)]
  obtain ⟨k, hk⟩ := takeBatch_eq opts rest ([] ++ [m]) (0 + m.size.toNat)
  rw [hk]
  simp

@[simp] theorem andThen_pure {S : Type} (r : Ending × S) :
    andThen r (fun s => (.returns, s)) = r := by
  obtain ⟨e, s⟩ := r
  cases e <;> rfl

theorem andThen_returns {S : Type} {r : Ending × S} {k : S → Ending × S} {s' : S}
    (h : andThen r k = (.returns, s')) : ∃ s, r = (.returns, s) ∧ k s = (.returns, s') := by
  obtain ⟨e, s⟩ := r
  cases e with
  | returns => exact ⟨s, rfl, h⟩
  | throws what => simp [andThen] at h
  | hangs => simp [andThen] at h

theorem andThen_invariant {S : Type} {P : S → Prop} {r : Ending × S} {k : S → Ending × S}
    (hr : P r.2) (hk : ∀ s, P s → P (k s).2) : P (andThen r k).2 := by
  obtain ⟨e, s⟩ := r
  cases e with
  | returns => exact hk s hr
  | throws what => exact hr
  | hangs => exact hr

/-- What holds of a batch that returns, and composes, holds of a batch loop that returns. -/
theorem batchLoop_rule {sv : Services C F W} {opts : Options} {folder : FolderInfo} {id : FolderId}
    {R : List MessageMeta → RunState C F W → RunState C F W → Prop} (nil : ∀ st, R [] st st)
    (step : ∀ batch rest st mid st', runBatch sv opts folder id batch st = (.returns, mid) →
      R rest mid st' → R (batch ++ rest) st st') :
    ∀ (fuel : Nat) (metas : List MessageMeta) (st st' : RunState C F W),
      batchLoop sv opts folder id fuel metas st = (.returns, st') → R metas st st' := by
  intro fuel
  induction fuel with
  | zero =>
    intro metas st st' h
    cases metas with
    | nil => cases h; exact nil st
    | cons m ms => cases h
  | succ fuel ih =>
    intro metas st st' h
    cases metas with
    | nil => cases h; exact nil st
    | cons m ms =>
      simp only [batchLoop] at h
      obtain ⟨mid, hbatch, hrest⟩ := andThen_returns h
      have := step _ _ st mid st' hbatch (ih _ mid st' hrest)
      rwa [takeBatch_append_drop] at this

/-- Batches that return, one message or more at a time, make a batch loop that returns. -/
theorem batchLoop_returns {sv : Services C F W} {opts : Options} {folder : FolderInfo}
    {id : FolderId} (hb : 1 ≤ opts.batchSize)
    (step : ∀ batch st, ∃ st', runBatch sv opts folder id batch st = (.returns, st')) :
    ∀ (fuel : Nat) (metas : List MessageMeta) (st : RunState C F W), metas.length ≤ fuel →
      ∃ st', batchLoop sv opts folder id fuel metas st = (.returns, st') := by
  intro fuel
  induction fuel with
  | zero =>
    intro metas st hlen
    obtain rfl : metas = [] := List.length_eq_zero_iff.1 (by omega)
    exact ⟨st, rfl⟩
  | succ fuel ih =>
    intro metas st hlen
    cases metas with
    | nil => exact ⟨st, rfl⟩
    | cons m ms =>
      obtain ⟨mid, hbatch⟩ := step (takeBatch opts [] 0 (m :: ms)) st
      have hpos := takeBatch_length_pos opts hb m ms
      obtain ⟨st', hrest⟩ := ih ((m :: ms).drop (takeBatch opts [] 0 (m :: ms)).length) mid
        (by simp only [List.length_drop, List.length_cons] at hlen ⊢; omega)
      exact ⟨st', by simp only [batchLoop, hbatch, andThen, hrest]⟩

/-- A relation of states that every batch keeps, however it ends, a batch loop keeps. -/
theorem batchLoop_relates {sv : Services C F W} {opts : Options} {folder : FolderInfo}
    {id : FolderId} {R : RunState C F W → RunState C F W → Prop} (refl : ∀ st, R st st)
    (trans : ∀ {st mid st'}, R st mid → R mid st' → R st st')
    (step : ∀ batch st, R st (runBatch sv opts folder id batch st).2) :
    ∀ (fuel : Nat) (metas : List MessageMeta) (st : RunState C F W),
      R st (batchLoop sv opts folder id fuel metas st).2 := by
  intro fuel
  induction fuel with
  | zero =>
    intro metas st
    cases metas <;> exact refl st
  | succ fuel ih =>
    intro metas st
    cases metas with
    | nil => exact refl st
    | cons m ms =>
      refine andThen_invariant (step _ st) fun mid hmid => ?_
      exact trans hmid (ih _ mid)

theorem folderLoop_rule {sv : Services C F W} {opts : Options}
    {R : List FolderInfo → RunState C F W → RunState C F W → Prop} (nil : ∀ st, R [] st st)
    (step : ∀ folder rest st mid st', runFolder sv opts folder st = (.returns, mid) →
      R rest mid st' → R (folder :: rest) st st') :
    ∀ (folders : List FolderInfo) (st st' : RunState C F W),
      folderLoop sv opts folders st = (.returns, st') → R folders st st' := by
  intro folders
  induction folders with
  | nil => intro st st' h; cases h; exact nil st
  | cons folder rest ih =>
    intro st st' h
    obtain ⟨mid, hfolder, hrest⟩ := andThen_returns h
    exact step folder rest st mid st' hfolder (ih mid st' hrest)

/-- An invariant of every folder, however it ends, is one of the folder loop. -/
theorem folderLoop_invariant {sv : Services C F W} {opts : Options} {P : RunState C F W → Prop}
    (step : ∀ folder st, P st → P (runFolder sv opts folder st).2) :
    ∀ (folders : List FolderInfo) (st : RunState C F W),
      P st → P (folderLoop sv opts folders st).2 := by
  intro folders
  induction folders with
  | nil => exact fun st h => h
  | cons folder rest ih => exact fun st h => andThen_invariant (step folder st h) ih

end Pipeline
end Imap2Pst
