import Imap2Pst.Pipeline.Accounting

/-!
# Pipeline.Handing

The history of a run against what its writer was called for. Whatever the services do and however
the run ends, the writer is where a series of calls takes it, the `addMessage` calls among them are
the attempts in their order, and an attempt is marked as stored when its call returned.

* `WriterCall` — a call of the run on the writer.
* `Wrote`      — what a stretch of the run called for.
* `run_wrote`  — the whole run.
-/

namespace Imap2Pst
namespace Pipeline

open CxxStd

variable {C F W : Type}

/-- A call on the writer; a message that did not get through the parser is called for, too. -/
inductive WriterCall where
  | createFolder (parent : FolderId) (name : Bytes)
  | addMessage (a : Attempt)
  | finish

/-- Whether the message of an attempt is taken, and the writer behind it. -/
def offer (sv : Services C F W) (w : W) (a : Attempt) : Bool × W :=
  match sv.parse a.raw with
  | .error _ => (false, w)
  | .ok msg =>
    match sv.writer.addMessage w a.id (withListedSize msg a.info) with
    | (.error _, w) => (false, w)
    | (.ok (), w) => (true, w)

namespace WriterCall

/-- The writer behind a call. -/
def run (sv : Services C F W) (w : W) : WriterCall → W
  | createFolder parent name => (sv.writer.createFolder w parent name).2
  | addMessage a => (offer sv w a).2
  | finish => (sv.writer.finish w).2

def attempt? : WriterCall → Option Attempt
  | addMessage a => some a
  | _ => none

/-- What the history says of the call is what it did. -/
def Noted (sv : Services C F W) (w : W) : WriterCall → Prop
  | addMessage a => a.stored = (offer sv w a).1
  | _ => True

/-- Every call of the list is noted, each on the writer that the calls before it left. -/
def AllNoted (sv : Services C F W) : W → List WriterCall → Prop
  | _, [] => True
  | w, c :: calls => c.Noted sv w ∧ AllNoted sv (c.run sv w) calls

theorem allNoted_append {sv : Services C F W} {calls calls' : List WriterCall} {w : W}
    (h : AllNoted sv w calls) (h' : AllNoted sv (calls.foldl (run sv) w) calls') :
    AllNoted sv w (calls ++ calls') := by
  induction calls generalizing w with
  | nil => exact h'
  | cons c calls ih => exact ⟨h.1, ih h.2 h'⟩

end WriterCall

/-- From `st` to `st'` the writer was called for the new attempts, and for folders between them. -/
def Wrote (sv : Services C F W) (st st' : RunState C F W) : Prop :=
  ∃ calls, st'.writer = calls.foldl (WriterCall.run sv) st.writer ∧
    st'.attempts = st.attempts ++ calls.filterMap WriterCall.attempt? ∧
    WriterCall.AllNoted sv st.writer calls

namespace Wrote

variable {sv : Services C F W} {st mid st' : RunState C F W}

theorem refl (st : RunState C F W) : Wrote sv st st := ⟨[], rfl, by simp, trivial⟩

theorem trans (h : Wrote sv st mid) (h' : Wrote sv mid st') : Wrote sv st st' := by
  obtain ⟨calls, hwriter, hattempts, hnoted⟩ := h
  obtain ⟨calls', hwriter', hattempts', hnoted'⟩ := h'
  refine ⟨calls ++ calls', ?_, ?_, ?_⟩
  · rw [hwriter', hwriter, List.foldl_append]
  · rw [hattempts', hattempts, List.filterMap_append, List.append_assoc]
  · exact WriterCall.allNoted_append hnoted (hwriter ▸ hnoted')

/-- A stretch without a call. -/
theorem same (hwriter : st'.writer = st.writer) (hattempts : st'.attempts = st.attempts) :
    Wrote sv st st' :=
  ⟨[], hwriter, by simp [hattempts], trivial⟩

theorem fetched (h : st.Fetched st') : Wrote sv st st' := by
  obtain ⟨_, _, _, rfl⟩ := h
  exact same rfl rfl

end Wrote

/-! ## One folder -/

section

variable (sv : Services C F W) (folder : FolderInfo) (id : FolderId)

theorem handOver_wrote (info : MessageMeta) (raw : RawMessage) (st : RunState C F W) :
    Wrote sv st (handOver sv folder id info raw st) := by
  -- the one call, and what it does to the writer
  have call (stored : Bool) (w : W) (st' : RunState C F W)
      (hoffer : offer sv st.writer ⟨folder, id, info, raw, stored⟩ = (stored, w))
      (hwriter : st'.writer = w)
      (hattempts : st'.attempts = st.attempts ++ [⟨folder, id, info, raw, stored⟩]) :
      Wrote sv st st' := by
    refine ⟨[.addMessage ⟨folder, id, info, raw, stored⟩], ?_, hattempts, ?_, trivial⟩
    · exact hwriter.trans (congrArg Prod.snd hoffer).symm
    · exact (congrArg Prod.fst hoffer).symm
  simp only [handOver]
  split
  · rename_i hparse
    exact call false st.writer _ (by simp only [offer, hparse]) rfl rfl
  · rename_i msg hparse
    split
    · rename_i what writer hadd
      exact call false writer _ (by simp only [offer, hparse, hadd]) rfl rfl
    · rename_i writer hadd
      exact call true writer _ (by simp only [offer, hparse, hadd]) rfl rfl

theorem writePass_wrote :
    ∀ (slots : List (MessageMeta × RawMessage × Bool)) (st : RunState C F W),
      Wrote sv st (writePass sv folder id slots st) := by
  intro slots
  induction slots with
  | nil => exact fun st => .refl st
  | cons slot slots ih =>
    intro st
    obtain ⟨info, raw, accounted⟩ := slot
    simp only [writePass]
    split
    · refine .trans ?_ (ih _)
      split
      · exact .refl st
      · exact .same rfl rfl
    · exact (handOver_wrote sv folder id info raw st).trans (ih _)

theorem runBatch_wrote (opts : Options) (batch : List MessageMeta) (st : RunState C F W) :
    Wrote sv st (runBatch sv opts folder id batch st).2 := by
  obtain ⟨mid, hmid, ⟨e, -, hstop⟩ | ⟨slots, hdone⟩⟩ := runBatch_cases sv opts folder id batch st
  · rw [hstop]
    exact .fetched hmid
  · rw [hdone]
    exact (Wrote.fetched hmid).trans (writePass_wrote sv folder id slots mid)

theorem runListing_wrote (opts : Options) (st : RunState C F W) :
    Wrote sv st (runListing sv opts folder id st).2 := by
  generalize hr : runListing sv opts folder id st = r
  obtain ⟨e, st'⟩ := r
  obtain ⟨client, ⟨-, rfl⟩ | ⟨-, rfl⟩ | ⟨metas, hloop⟩⟩ := runListing_cases hr
  · exact .same rfl rfl
  · exact .same rfl rfl
  · have hbatches := batchLoop_relates (R := Wrote sv) .refl .trans
      (runBatch_wrote sv folder id opts) metas.length metas
      { st with client, listings := st.listings ++ [(folder, metas)] }
    rw [hloop] at hbatches
    exact .trans (.same rfl rfl) hbatches

end

/-! ## The run -/

/-- The walk to a folder calls for the folders it makes. -/
theorem folderFor_calls (sv : Services C F W) (path : List Bytes) :
    ∀ (pre : Bytes) (parent : FolderId) (w : W) (byPath : List (Bytes × FolderId)),
      ∃ calls : List (FolderId × Bytes),
        (folderFor sv.writer pre parent path (w, byPath)).2.1 =
          calls.foldl (fun w c => (sv.writer.createFolder w c.1 c.2).2) w := by
  induction path with
  | nil => exact fun _ _ w _ => ⟨[], rfl⟩
  | cons part rest ih =>
    intro pre parent w byPath
    simp only [folderFor]
    split
    · exact ih _ _ w byPath
    · split
      · rename_i hcreate
        exact ⟨[(parent, part)], (congrArg Prod.snd hcreate).symm⟩
      · rename_i id w' hcreate
        obtain ⟨calls, hcalls⟩ := ih _ id w' _
        refine ⟨(parent, part) :: calls, hcalls.trans ?_⟩
        rw [List.foldl_cons, hcreate]

theorem wrote_folders {sv : Services C F W} {st st' : RunState C F W}
    {calls : List (FolderId × Bytes)}
    (hwriter : st'.writer = calls.foldl (fun w c => (sv.writer.createFolder w c.1 c.2).2) st.writer)
    (hattempts : st'.attempts = st.attempts) : Wrote sv st st' := by
  refine ⟨calls.map fun c => .createFolder c.1 c.2, ?_, ?_, ?_⟩
  · rw [hwriter, List.foldl_map]
    rfl
  · have hnone : (calls.map fun c => WriterCall.createFolder c.1 c.2).filterMap
        WriterCall.attempt? = [] := by
      rw [List.filterMap_map]
      exact List.filterMap_eq_nil_iff.2 fun _ _ => rfl
    rw [hnone, hattempts, List.append_nil]
  · generalize st.writer = w
    clear hwriter hattempts
    induction calls generalizing w with
    | nil => trivial
    | cons c calls ih => exact ⟨trivial, ih _⟩

theorem runFolder_wrote (sv : Services C F W) (opts : Options) (folder : FolderInfo)
    (st : RunState C F W) : Wrote sv st (runFolder sv opts folder st).2 := by
  unfold runFolder
  split
  · exact .refl st
  · obtain ⟨calls, hcalls⟩ := folderFor_calls sv folder.path [] sv.writer.ipmSubtree st.writer
      st.byPath
    split
    · rename_i hfor
      rw [hfor] at hcalls
      exact wrote_folders hcalls rfl
    · rename_i id writer byPath hfor
      rw [hfor] at hcalls
      have hmade (n : Nat) : Wrote sv st { st with writer, byPath, stats.folders := n } :=
        wrote_folders hcalls rfl
      split
      · exact (hmade _).trans (runListing_wrote sv folder id opts _)
      · exact hmade _

theorem folderLoop_wrote (sv : Services C F W) (opts : Options) :
    ∀ (folders : List FolderInfo) (st : RunState C F W),
      Wrote sv st (folderLoop sv opts folders st).2 := by
  intro folders
  induction folders with
  | nil => exact fun st => .refl st
  | cons folder rest ih =>
    intro st
    have hfolder := runFolder_wrote sv opts folder st
    simp only [folderLoop]
    generalize runFolder sv opts folder st = r at hfolder
    obtain ⟨e, mid⟩ := r
    cases e with
    | returns => exact hfolder.trans (ih mid)
    | throws what => exact hfolder
    | hangs => exact hfolder

theorem finishWriter_wrote (sv : Services C F W) (st : RunState C F W) :
    Wrote sv st (finishWriter sv st).2 := by
  refine ⟨[.finish], ?_, ?_, trivial, trivial⟩
  · unfold finishWriter
    split <;> rename_i hfinish <;> exact (congrArg Prod.snd hfinish).symm
  · unfold finishWriter
    split <;> exact (List.append_nil _).symm

/-- The writer of a run is where its calls take the one that was opened. The `addMessage` calls
are the attempts, and those marked as stored are the ones that returned. -/
theorem run_wrote {sv : Services C F W} {opts : Options} {client : C} {spool : F} {e : Ending}
    {st : RunState C F W} (h : run sv opts client spool = (e, some st)) :
    ∃ writer calls, sv.writer.create opts.outputPath = .ok writer ∧
      st.writer = calls.foldl (WriterCall.run sv) writer ∧
      st.attempts = calls.filterMap WriterCall.attempt? ∧
      WriterCall.AllNoted sv writer calls := by
  obtain ⟨listed, client', writer, -, hcreate, hmigrate⟩ := run_eq_some h
  have hfolders := folderLoop_wrote sv opts (sv.srt.sort folderLt (selected opts listed))
    { client := client', spool, writer }
  have hwrote : Wrote sv { client := client', spool, writer } st := by
    unfold migrate at hmigrate
    generalize folderLoop sv opts _ _ = r at hmigrate hfolders
    obtain ⟨ending, mid⟩ := r
    cases ending with
    | returns =>
      have hst : (finishWriter sv mid).2 = st := congrArg Prod.snd hmigrate
      exact hst ▸ hfolders.trans (finishWriter_wrote sv mid)
    | throws what =>
      cases hmigrate
      exact hfolders
    | hangs =>
      cases hmigrate
      exact hfolders
  obtain ⟨calls, hwriter, hattempts, hnoted⟩ := hwrote
  exact ⟨writer, calls, hcreate, hwriter, hattempts, hnoted⟩

end Pipeline
end Imap2Pst
