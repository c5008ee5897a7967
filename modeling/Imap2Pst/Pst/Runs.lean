import Imap2Pst.Pst.Calls

/-!
# Pst.Runs

A writer from its constructor on, under a caller that catches what a call throws and goes on.

* `filed_create` — the constructor leaves the folders every store has.
* `filed_call`   — a call that returns, or throws before it adds a node, does what
  `Archive.after` says.
* `filed_run`    — so does any sequence of such calls.
* `message_round_trip` — the node of a message, on its own.
-/

namespace Imap2Pst
namespace Pst

open CxxStd

/-! ## The constructor -/

/-- The writer once the root folder is made. -/
def PstWriter.rooted (w : PstWriter) : PstWriter :=
  { w with
    names := initNames
    folders :=
      { folders :=
          [{ nid := kNidRootFolder, parent := kNidRootFolder, name := str "Root - Mailbox" }] }
    contents := [.create contentsColumns] }

theorem files_rooted {key : RecordKey} {fate : Nat → Bool} {clock : Nat → Int} {v : NdbWriter}
    {fate' : Nat → Bool} (h : Started fate' v) :
    Files Archive.bare (PstWriter.rooted { PstWriter.blank key fate clock with ndb := v }) where
  ok := Archive.bare_ok
  stands := ⟨h.sound, _, HoldsNames.start⟩
  folders := rfl
  nextFolder := rfl
  nextMessage := rfl
  shelved := rfl
  contents i s t hi ht := by
    cases i with
    | zero =>
      cases ht
      exact ⟨_, StreamingTable.streams_new h.sound⟩
    | succ i => cases ht
  nodes := by
    show List.Forall₂ _ [] v.nbt
    rw [h.nbt]
    exact .nil
  unfinished := rfl
  writable := h.finished

/-- One of the folders of `init`. -/
theorem Files.builtin {a : Archive} {w : PstWriter} (h : Files a w) (i : Nat) (name : Bytes)
    (hi : i < a.shelves.length) (hfew : a.shelves.length < 8) (hnone : a.numbered = 0) : ∃ w',
      w.makeFolder (folderNid i) name 0 = (folderNid a.shelves.length, w') ∧
      Files (a.addShelf (folderNid i) name) w' ∧ w'.storeGuid = w.storeGuid ∧
      w'.rootFolder = w.rootFolder := by
  obtain ⟨w', hmake, hfiles, hkey, hadvertised⟩ := h.makeFolder name
    (h.ok.folderNid_mem hi) (Archive.few_addShelf hfew hnone)
  exact ⟨w', hmake, hfiles, hkey, (List.cons.inj hadvertised).1⟩

theorem makeRoot_eq {w : PstWriter} (hfolders : w.folders = {}) (hcontents : w.contents = []) :
    PstWriter.makeRoot { w with names := initNames } = w.rooted := by
  unfold PstWriter.makeRoot PstWriter.makeFolder PstWriter.rooted
  rw [hfolders, hcontents]
  rfl

/-- The folders every store has, and where each is kept. -/
theorem filed_init {w : PstWriter} (h : Files Archive.bare w.rooted) (hfolders : w.folders = {})
    (hcontents : w.contents = []) (hroot : w.rootFolder = kNidRootFolder) :
    Filed w.storeGuid Archive.start (PstWriter.init w) := by
  obtain ⟨w₁, hmake₁, h₁, hkey₁, hroot₁⟩ := h.builtin 0 (str "Top of Personal Folders")
    (by decide +kernel) (by decide +kernel) rfl
  obtain ⟨w₂, hmake₂, h₂, hkey₂, hroot₂⟩ := h₁.builtin 1 (str "Deleted Items")
    (by decide +kernel) (by decide +kernel) rfl
  obtain ⟨w₃, hmake₃, h₃, hkey₃, hroot₃⟩ := h₂.builtin 1 (str "Sent Items")
    (by decide +kernel) (by decide +kernel) rfl
  obtain ⟨w₄, hmake₄, h₄, hkey₄, hroot₄⟩ := h₃.builtin 1 (str "Outbox")
    (by decide +kernel) (by decide +kernel) rfl
  obtain ⟨w₅, hmake₅, h₅, hkey₅, hroot₅⟩ := h₄.builtin 0 (str "Search Root")
    (by decide +kernel) (by decide +kernel) rfl
  obtain ⟨w₆, hmake₆, h₆, hkey₆, hroot₆⟩ := h₅.builtin 0 (str "Views")
    (by decide +kernel) (by decide +kernel) rfl
  obtain ⟨w₇, hmake₇, h₇, hkey₇, hroot₇⟩ := h₆.builtin 0 (str "Common Views")
    (by decide +kernel) (by decide +kernel) rfl
  have hroot₀ : w.rooted.rootFolder = folderNid 0 := hroot
  have hinit : PstWriter.init w = { w₇ with
      ipmSubtree := folderNid 1
      deletedItems := folderNid 2
      sentItems := folderNid 3
      outbox := folderNid 4
      searchRoot := folderNid 5
      views := folderNid 6
      commonViews := folderNid 7 } := by
    unfold PstWriter.init
    rw [makeRoot_eq hfolders hcontents, show kNidRootFolder = folderNid 0 from rfl]
    dsimp only
    rw [hmake₁]
    dsimp only
    rw [show folderNid Archive.bare.shelves.length = folderNid 1 from rfl, hmake₂]
    dsimp only
    rw [hmake₃]
    dsimp only
    rw [hmake₄]
    dsimp only
    rw [hroot₄, hroot₃, hroot₂, hroot₁, hroot₀, hmake₅]
    dsimp only
    rw [hroot₅, hroot₄, hroot₃, hroot₂, hroot₁, hroot₀, hmake₆]
    dsimp only
    rw [hroot₆, hroot₅, hroot₄, hroot₃, hroot₂, hroot₁, hroot₀, hmake₇]
    rfl
  rw [hinit]
  refine ⟨⟨h₇.ok, h₇.stands, h₇.folders, h₇.nextFolder, h₇.nextMessage, h₇.shelved, h₇.contents,
    h₇.nodes, h₇.unfinished, h₇.writable⟩, ?_, ?_⟩
  · show w₇.storeGuid = _
    rw [hkey₇, hkey₆, hkey₅, hkey₄, hkey₃, hkey₂, hkey₁]
    rfl
  · show [w₇.rootFolder, _, _, _, _, _, _, _] = _
    rw [hroot₇, hroot₆, hroot₅, hroot₄, hroot₃, hroot₂, hroot₁, hroot₀]
    rfl

theorem filed_create {key : RecordKey} {fate : Nat → Bool} {clock : Nat → Int} {w : PstWriter}
    {u : Unit} (h : PstWriter.create (PstWriter.blank key fate clock) = .ok u w) :
    Filed key Archive.start w := by
  unfold PstWriter.create at h
  obtain ⟨_, w₁, hopen, hinit⟩ := bind_eq_ok.1 h
  cases modify_eq_ok.1 hinit
  obtain ⟨v, hv, rfl⟩ := PstWriter.onDisk_eq_ok.1 hopen
  exact filed_init (files_rooted (openWriter_spec hv)) rfl rfl rfl

/-! ## Calls -/

section

variable {std : StdSort} {key : RecordKey} {a : Archive} {w : PstWriter}

/-- If the call throws, it throws before it has added a node. -/
def StopsEarly (std : StdSort) (call : PstWriter.PstCall) (w : PstWriter) : Prop :=
  ∀ e w', call.run std w = .error e w' → w'.ndb.nbt = w.ndb.nbt

theorem filed_call {call : PstWriter.PstCall} (h : w.ndb.good = true → Filed key a w)
    (hstops : StopsEarly std call w)
    (hfew : (a.after call (attempt (call.run std) w).1.isSome).Few)
    (hgood : (attempt (call.run std) w).2.ndb.good = true) :
    Filed key (a.after call (attempt (call.run std) w).1.isSome) (attempt (call.run std) w).2 := by
  have hbad := call.run_drives std w
  cases hrun : call.run std w with
  | ok u w' =>
    rw [attempt_eq_some.2 hrun] at hfew hgood ⊢
    have hfiled := h (by_contra fun hw => absurd hgood
      (by simp [(hbad.returns _ _ hrun).1 (Bool.eq_false_of_not_eq_true hw)]))
    cases call with
    | createFolder parent name =>
      obtain ⟨id, w₁, hcreate, hpure⟩ := bind_eq_ok.1 hrun
      obtain ⟨-, rfl⟩ := pure_eq_ok.1 hpure
      exact (hfiled.createFolder hcreate hfew).2
    | addMessage folder m => exact hfiled.addMessage hrun hfew
  | error e w' =>
    rw [attempt_eq_none.2 ⟨e, hrun⟩] at hfew hgood ⊢
    have hfiled := h (by_contra fun hw => absurd hgood
      (by simp [(hbad.throws _ _ hrun).1 (Bool.eq_false_of_not_eq_true hw)]))
    cases call with
    | createFolder parent name =>
      rcases bind_eq_error.1 hrun with hrun | ⟨_, _, _, hpure⟩
      · by_cases hparent : (w.folders.folder? parent).isSome
        · rw [createFolder_known name hparent] at hrun
          cases hrun
        · rw [createFolder_unknown name hparent] at hrun
          cases hrun
          exact hfiled
      · cases hpure
    | addMessage folder m => exact hfiled.addMessage_throws hrun hfew (hstops e w' hrun) hgood

/-- A writer that has been called, the exceptions caught, holds what the calls that returned have
put into it. -/
theorem filed_run {calls : List PstWriter.PstCall} (h : w.ndb.good = true → Filed key a w)
    (hstops : AtEach (StopsEarly std) (PstWriter.PstCall.run std) calls w)
    (hfew : (a.afterAll calls (tryEach (PstWriter.PstCall.run std) calls w).1).Few)
    (hgood : (tryEach (PstWriter.PstCall.run std) calls w).2.ndb.good = true) :
    Filed key (a.afterAll calls (tryEach (PstWriter.PstCall.run std) calls w).1)
      (tryEach (PstWriter.PstCall.run std) calls w).2 := by
  induction calls generalizing a w with
  | nil => exact h hgood
  | cons call calls ih =>
    have hcons : tryEach (PstWriter.PstCall.run std) (call :: calls) w =
        ((attempt (call.run std) w).1 ::
          (tryEach (PstWriter.PstCall.run std) calls (attempt (call.run std) w).2).1,
          (tryEach (PstWriter.PstCall.run std) calls (attempt (call.run std) w).2).2) := rfl
    rw [hcons] at hfew hgood ⊢
    exact ih (fun hgood₁ => filed_call h hstops.1 (Archive.Few.of_afterAll hfew) hgood₁) hstops.2
      hfew hgood

end

/-! ## One message -/

/-- The node that is added for a message reads as the message, in any file that has what was
written, whatever else is written to it: its properties, its recipients and its attachments in
their order, and by the same law the messages in them. -/
theorem message_round_trip {std : StdSort} {folder nid : Nat} {m : Message} {w w' : PstWriter}
    {u : Unit} (h : PstWriter.addMessageNode std folder nid m w = .ok u w')
    (hs : Stands w.toStoreWriter) (hnid : nid < 2 ^ 32) (hfolder : folder < 2 ^ 32) : ∃ e,
      w'.ndb.nbt = w.ndb.nbt ++ [e] ∧ e.nid = nid ∧ e.parent = folder ∧
      ∀ store, Covers store w'.ndb → ∃ n, readNode store e.data e.sub = some n ∧
        MessageReads store w.storeGuid nid false n m := by
  obtain ⟨s, e, rfl, -, hadds, hdelivered⟩ := PstWriter.addMessageNode_spec h hs hnid hfolder
  exact ⟨e, hadds.nbt, hdelivered.nid, hdelivered.parent, hdelivered.reads⟩

/-- A message with a recipient, a file and a message in it. -/
def note : Message where
  subject := str "Fwd"
  to_ := [⟨str "Ann", str "ann@example.org"⟩]
  deliveryTime := 1
  attachments :=
    [{ contentType := str "text/plain", filename := str "a.txt", data := str "Hi" },
      { contentType := str "message/rfc822"
        data := str "Subject: Hi"
        embedded := some { subject := str "Hi", deliveryTime := 1 } }]

def someKey : RecordKey := Vector.replicate 16 0x5A

set_option maxRecDepth 100000 in
theorem note_written : succeeded ((do
    PstWriter.create
    PstWriter.addMessageNode .insertion (folderNid 1) (messageNid 0) note)
      (PstWriter.blank someKey (fun _ => true) fun _ => 0)) = true := by
  decide +kernel

theorem message_round_trip_note : ∃ (w w' : PstWriter) (e : NbtEntry),
    PstWriter.addMessageNode StdSort.insertion (folderNid 1) (messageNid 0) note w =
      .ok () w' ∧
    w'.ndb.nbt = [e] ∧ e.nid = messageNid 0 ∧ e.parent = folderNid 1 ∧
    ∀ store, Covers store w'.ndb → ∃ n, readNode store e.data e.sub = some n ∧
      MessageReads store someKey (messageNid 0) false n note := by
  obtain ⟨_, w', hrun⟩ := succeeded_iff.1 note_written
  obtain ⟨_, w, hcreate, hnode⟩ := bind_eq_ok.1 hrun
  have hfiled := filed_create hcreate
  obtain ⟨e, hnbt, hnid, hparent, hreads⟩ := message_round_trip hnode hfiled.stands
    (makeNid_lt _ _) (folderNid_lt 1)
  have hnone : w.ndb.nbt = [] := List.forall₂_nil_left_iff.1 hfiled.nodes
  rw [hnone] at hnbt
  rw [hfiled.key] at hreads
  exact ⟨w, w', e, hnode, hnbt, hnid, hparent, hreads⟩

end Pst
end Imap2Pst
