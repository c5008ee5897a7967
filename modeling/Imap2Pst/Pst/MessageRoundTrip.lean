import Imap2Pst.Pst.MessageReads
import Imap2Pst.Pst.Outcomes

/-!
# Pst.MessageRoundTrip

The node that `buildMessage` builds reads as the message it was built from.

* `Stands`, `StandsFirm`  — what building a message needs of the state, and keeps.
* `buildMessage_reads`    — in any file that has what was written, to any depth.
-/

namespace Imap2Pst
namespace Pst

open CxxStd

/-! ## Steps -/

/-- What building a message needs of the state, and keeps. -/
structure Stands (s : StoreWriter) : Prop where
  sound : Sound s.ndb
  names : ∃ seen, HoldsNames seen s.names

/-- The properties are those of the message; the file is left alone. -/
theorem takeProperties_spec {key : RecordKey} {nid : Nat} {embedded : Bool} {m : Message}
    {pc : PropertyContext} {s s' : StoreWriter}
    (h : takeProperties key nid embedded m s = .ok pc s') : ∃ created modified,
      (m.delivered ≠ 0 → created = m.delivered ∧ modified = m.delivered) ∧
      pc = (messageProperties key nid embedded created modified m s.names).1 ∧
      s'.ndb = s.ndb ∧ s'.names = buildNames m s.names := by
  have htime {t : Int} {s s' : StoreWriter} (h : timeOr m.delivered s = .ok t s') :
      (m.delivered ≠ 0 → t = m.delivered) ∧ s'.ndb = s.ndb ∧ s'.names = s.names := by
    unfold timeOr at h
    split at h
    · obtain ⟨rfl, rfl⟩ := pure_eq_ok.1 h
      exact ⟨fun _ => rfl, rfl, rfl⟩
    · rename_i hzero
      cases h
      exact ⟨fun hne => absurd hne hzero, rfl, rfl⟩
  unfold takeProperties at h
  obtain ⟨created, s₁, hcreated, h⟩ := bind_eq_ok.1 h
  obtain ⟨modified, s₂, hmodified, h⟩ := bind_eq_ok.1 h
  obtain ⟨hc, hndb₁, hnames₁⟩ := htime hcreated
  obtain ⟨hm, hndb₂, hnames₂⟩ := htime hmodified
  have hlast : EStateM.Result.ok
      (messageProperties key nid embedded created modified m s₂.names).1
      { s₂ with names := (messageProperties key nid embedded created modified m s₂.names).2 } =
        (EStateM.Result.ok pc s' : EStateM.Result PstError StoreWriter PropertyContext) := h
  obtain ⟨rfl, rfl⟩ := EStateM.Result.ok.inj hlast
  refine ⟨created, modified, fun hne => ⟨hc hne, hm hne⟩, ?_, hndb₂.trans hndb₁, ?_⟩
  · rw [← hnames₁, ← hnames₂]
  · rw [← hnames₁, ← hnames₂]
    exact messageProperties_names

theorem onStreams_eq_ok {α : Type} {x : Streaming SubnodeAllocator α} {s s' : StoreWriter}
    {subs subs' : SubnodeAllocator} {a : α} :
    onStreams x (s, subs) = .ok a (s', subs') ↔
      ∃ w, x (s.ndb, subs) = .ok a (w, subs') ∧ s' = { s with ndb := w } := by
  rw [onStreams, onto_eq_ok]
  constructor
  · rintro ⟨⟨w, t⟩, hx, heq⟩
    cases heq
    exact ⟨w, hx, rfl⟩
  · rintro ⟨w, hx, rfl⟩
    exact ⟨(w, subs'), hx, rfl⟩

theorem onFile_eq_ok {α : Type} {x : Ndb α} {s s' : StoreWriter} {a : α} :
    onFile x s = .ok a s' ↔ ∃ w, x s.ndb = .ok a w ∧ s' = { s with ndb := w } := onto_eq_ok

theorem addSubnode_eq_ok {nid : Nat} {n : NodeData} {s s' : StoreWriter}
    {subs subs' : SubnodeAllocator} {u : Unit} :
    addSubnode nid n (s, subs) = .ok u (s', subs') ↔
      s = s' ∧ subs.add nid n.data n.sub = subs' := by
  constructor
  · intro h
    cases h
    exact ⟨rfl, rfl⟩
  · rintro ⟨rfl, rfl⟩
    rfl

theorem addTable_eq_ok {std : StdSort} {nid : Nat} {columns : List Nat} {rows : List RowCalls}
    {s s' : StoreWriter} {subs subs' : SubnodeAllocator} {u : Unit}
    (h : addTable std nid columns rows (s, subs) = .ok u (s', subs')) : ∃ n w,
      TableContext.node std columns (tableCalls rows) s.ndb = .ok n w ∧
        s' = { s with ndb := w } ∧ subs' = subs.add nid n.data n.sub := by
  unfold addTable at h
  obtain ⟨n, ⟨s₁, subs₁⟩, houter, hadd⟩ := bind_eq_ok.1 h
  obtain ⟨hfile, rfl⟩ := onOuter_eq_ok.1 houter
  obtain ⟨w, hnode, rfl⟩ := onFile_eq_ok.1 hfile
  obtain ⟨rfl, rfl⟩ := addSubnode_eq_ok.1 hadd
  exact ⟨n, w, hnode, rfl, rfl⟩

theorem writeHeap_eq_ok {std : StdSort} {heap : Bytes} {entries : List SubnodeEntry}
    {w w' : NdbWriter} {n : NodeData} (h : writeHeap std heap entries w = .ok n w') :
    ∃ w₁, writeData heap w = .ok n.data w₁ ∧ writeSubnodes std entries w₁ = .ok n.sub w' := by
  unfold writeHeap at h
  obtain ⟨data, w₁, hdata, h⟩ := bind_eq_ok.1 h
  obtain ⟨sub, w₂, hsub, h⟩ := bind_eq_ok.1 h
  obtain ⟨rfl, rfl⟩ := pure_eq_ok.1 h
  exact ⟨w₁, hdata, hsub⟩

/-! ## Where the file goes -/

/-- The file grows and the names stay in order. -/
def StandsFirm (s s' : StoreWriter) : Prop := Stands s → Stands s' ∧ Grows s.ndb s'.ndb

instance : IsPreorder StoreWriter StandsFirm where
  refl _ hs := ⟨hs, Grows.refl hs.sound⟩
  trans _ _ _ h h' hs := ⟨(h' (h hs).1).1, (h hs).2.trans (h' (h hs).1).2⟩

theorem emitBlock_drives (data : Bytes) (internal : Bool) :
    Drives SoundlyGrows Anywhere (emitBlock data internal) := (emitBlock_grows data internal).drives

theorem StandsFirm.of_file (s : StoreWriter) (w : NdbWriter) (h : SoundlyGrows s.ndb w) :
    StandsFirm s { s with ndb := w } := fun hs => ⟨⟨(h hs.sound).sound, hs.names⟩, h hs.sound⟩

theorem takeProperties_drives (key : RecordKey) (nid : Nat) (embedded : Bool) (m : Message) :
    Drives StandsFirm Anywhere (takeProperties key nid embedded m) := by
  refine Moves.drives fun s pc s' h hs => ?_
  obtain ⟨_, _, -, -, hndb, hnames⟩ := takeProperties_spec h
  obtain ⟨seen, hseen⟩ := hs.names
  refine ⟨⟨hndb ▸ hs.sound, _, hnames ▸ hseen.buildNames m⟩, ?_⟩
  rw [hndb]
  exact Grows.refl hs.sound

section

variable {std : StdSort} {key : RecordKey} {s s' : StoreWriter} {subs subs' : SubnodeAllocator}

theorem innerDrives (e : Option Message) : InnerDrives std key StandsFirm Anywhere e :=
  fun inner _ => buildMessage_drives emitBlock_drives StandsFirm.of_file (fun _ _ _ => trivial)
    std key (takeProperties_drives key) inner

theorem buildMessage_stands {nid : Nat} {embedded : Bool} {m : Message} {heap : Bytes}
    (h : buildMessage std key nid embedded m (s, subs) = .ok heap (s', subs')) (hs : Stands s) :
    Stands s' ∧ Grows s.ndb s'.ndb :=
  (innerDrives (some m) m rfl nid embedded _).returns _ _ h hs

theorem buildAttachments_stands {i : Nat} {as : List Attachment} {u : Unit}
    (h : buildAttachments std key i as (s, subs) = .ok u (s', subs')) (hs : Stands s) :
    Stands s' ∧ Grows s.ndb s'.ndb :=
  (buildAttachments_drives emitBlock_drives StandsFirm.of_file (fun _ _ _ => trivial) std key i
    (fun a _ => innerDrives a.embedded) _).returns _ _ h hs

/-! ## Attachments -/

/-- Building the message leaves a heap that reads as the message in a file with what was written. -/
def BuildsReadable (std : StdSort) (key : RecordKey) (m : Message) : Prop :=
  ∀ {nid : Nat} {embedded : Bool} {heap : Bytes} {s s' : StoreWriter} {subs' : SubnodeAllocator},
    buildMessage std key nid embedded m (s, {}) = .ok heap (s', subs') → Stands s →
    ∃ h : HeapNode, heap = h.serialize ∧ h.Ok ∧ h.userRoot < 2 ^ 32 ∧ subs'.Ok ∧
      ∀ store n, Covers store s'.ndb → NodeReads n h subs'.entries →
        MessageReads store key nid embedded n m

/-- The content of an attachment, as its context is to have it. -/
inductive ContentStored (std : StdSort) (key : RecordKey) (a : Attachment) (s' : StoreWriter)
    (subs' : SubnodeAllocator) : Setter → Prop
  | byValue {nid : Nat} (plain : a.embedded = none) (lt : nid < 2 ^ 32)
      (stored : ∀ blocks, Stored s'.ndb blocks subs'.entries nid (leavesOf a.data)) :
      ContentStored std key a s' subs' (.spilledValue PR_ATTACH_DATA_BIN nid.toUInt32)
  | message {inner : Message} {n : NodeData} (embedded : a.embedded = some inner)
      (entry : ⟨embeddedNid, n.data, n.sub⟩ ∈ subs'.entries)
      (reads : ∀ store, Covers store s'.ndb → ∃ v, readNode store n.data n.sub = some v ∧
        MessageReads store key embeddedNid true v inner) :
      ContentStored std key a s' subs'
        (.object PR_ATTACH_DATA_OBJ embeddedNid.toUInt32 (messageSize inner))

theorem storeContent_spec {a : Attachment} {content : Setter}
    (ih : ∀ inner, a.embedded = some inner → BuildsReadable std key inner)
    (hrun : storeContent std key a.data a.embedded (s, {}) = .ok content (s', subs'))
    (hs : Stands s) :
    Stands s' ∧ Grows s.ndb s'.ndb ∧ subs'.Ok ∧ ContentStored std key a s' subs' content := by
  cases hinner : a.embedded with
  | none =>
    rw [hinner] at hrun
    obtain ⟨nid, ⟨s₁, subs₁⟩, hstreams, hrun⟩ := bind_eq_ok.1 hrun
    obtain ⟨rfl, heq⟩ := pure_eq_ok.1 hrun
    cases heq
    obtain ⟨w, hspill, rfl⟩ := onStreams_eq_ok.1 hstreams
    obtain ⟨hg, hok, -, hlt, hstored⟩ := SubnodeAllocator.spill_stored hspill hs.sound
      SubnodeAllocator.ok_new
    exact ⟨⟨hg.sound, hs.names⟩, hg, hok, .byValue hinner hlt hstored⟩
  | some inner =>
    rw [hinner] at hrun
    obtain ⟨⟨heap, subs₁⟩, ⟨s₁, t₁⟩, houter, hrun⟩ := bind_eq_ok.1 hrun
    obtain ⟨hlocal, rfl⟩ := onOuter_eq_ok.1 houter
    have hbuild := withLocal_eq_ok.1 hlocal
    obtain ⟨n, ⟨s₂, t₂⟩, hwrite, hrun⟩ := bind_eq_ok.1 hrun
    obtain ⟨hfile, rfl⟩ := onOuter_eq_ok.1 hwrite
    obtain ⟨w, hheap, rfl⟩ := onFile_eq_ok.1 hfile
    obtain ⟨_, ⟨s₃, t₃⟩, hadd, hrun⟩ := bind_eq_ok.1 hrun
    obtain ⟨rfl, rfl⟩ := addSubnode_eq_ok.1 hadd
    obtain ⟨rfl, heq⟩ := pure_eq_ok.1 hrun
    cases heq
    obtain ⟨hs₁, hg⟩ := buildMessage_stands hbuild hs
    obtain ⟨h, rfl, hok, hroot, hsok, hreads⟩ := ih inner hinner hbuild hs
    obtain ⟨w₁, hdata, hsub⟩ := writeHeap_eq_ok hheap
    obtain ⟨hg', hnode, hdlt, hslt⟩ := nodeAt_of_writes hdata hsub hs₁.sound hok hroot hsok
    refine ⟨⟨hg'.sound, hs₁.names⟩, hg.trans hg', ?_, .message hinner (List.mem_append_right _
      (List.mem_singleton_self _)) fun store hc => ?_⟩
    · exact SubnodeAllocator.ok_new.add (by decide) hdlt hslt (by decide) List.not_mem_nil
    · obtain ⟨v, hread, hv⟩ := hnode.reads hc
      exact ⟨v, hread, hreads store v (hc.of_grows hg') hv⟩

/-- The node of an attachment reads as the attachment. -/
structure AttachmentAt (std : StdSort) (key : RecordKey) (i : Nat) (a : Attachment)
    (s' : StoreWriter) (e : SubnodeEntry) : Prop where
  nid : e.nid = attachmentNid i
  fits : e.Fits
  reads : ∀ store n, Covers store s'.ndb → n.subnode (attachmentNid i) = some e →
    AttachmentReads store key n i a

theorem AttachmentAt.mono {i : Nat} {a : Attachment} {e : SubnodeEntry}
    (h : AttachmentAt std key i a s e) (hg : Grows s.ndb s'.ndb) :
    AttachmentAt std key i a s' e :=
  ⟨h.nid, h.fits, fun store n hc => h.reads store n (hc.of_grows hg)⟩

theorem attachmentShapes_nodup :
    ((attachmentShapes.map fun s => tagId s.1) ++ [tagId PR_ATTACH_DATA_BIN]).Nodup := by
  decide

/-- The context of an attachment reads as it should, whatever its content is. -/
theorem attachmentContext_reads {i : Nat} {a : Attachment} {content : Setter}
    (hid : tagId content.tag = tagId PR_ATTACH_DATA_BIN) (hmatches : content.Matches)
    {w : NdbWriter} {h : HeapNode} {entries : List SubnodeEntry}
    (hp : PcAt w h entries (content.apply (built (attachmentSetters i a)))) (hok : h.Ok)
    {n : NodeView} (hreads : NodeReads n h entries) {store : Store} (hc : Covers store w) :
    ContextReads store n (attachmentCalls i a content) (2 ^ 16) := by
  rw [made_attachmentCalls] at hp
  have hsmall : ∀ s ∈ attachmentShapes, tagId s.1 ≤ 2 ^ 16 := by decide
  have hmatching : ∀ s ∈ attachmentShapes, fixedPropSize (tagType s.1) = s.2 := by decide
  refine contextReads_of hp hok hreads hc (shape_attachmentCalls i a content) ?_ (fun s hs => ?_)
    (fun s hs => ?_) fun id _ => rfl
  · rw [List.map_append, List.map_singleton]
    exact hid ▸ attachmentShapes_nodup
  · rcases List.mem_append.1 hs with hs | hs
    · exact hmatching s hs
    · rw [List.mem_singleton.1 hs]
      exact hmatches
  · rcases List.mem_append.1 hs with hs | hs
    · exact hsmall s hs
    · rw [List.mem_singleton.1 hs]
      exact (tagId_lt _).le

/-- So do the octets of one by value. -/
theorem attachmentData_reads {i nid : Nat} {a : Attachment} (hnid : nid < 2 ^ 32) {w : NdbWriter}
    {h : HeapNode} {entries : List SubnodeEntry}
    (hp : PcAt w h entries ((Setter.spilledValue PR_ATTACH_DATA_BIN nid.toUInt32).apply
      (built (attachmentSetters i a)))) (hok : h.Ok) {n : NodeView} (hreads : NodeReads n h entries)
    {store : Store} (hc : Covers store w) {leaves : List Bytes}
    (hv : ∀ blocks, Stored w blocks entries nid leaves) :
    readProperty store n (tagId PR_ATTACH_DATA_BIN) = some (kPtBinary, .octets leaves.flatten) := by
  have htype : fixedPropSize (tagType PR_ATTACH_DATA_BIN) = 0 := by decide
  have hbinary : tagType PR_ATTACH_DATA_BIN = kPtBinary := by decide
  rw [← hbinary]
  refine hp.spilled hok hreads hc htype hnid ?_ hv
  rw [Setter.apply_eq, Setter.kept, Setter.tag, UInt32.toNat_ofNat', Nat.mod_eq_of_lt hnid,
    PropertyContext.find_put, if_pos rfl]

theorem buildAttachment_spec {i : Nat} {a : Attachment} {u : Unit}
    (ih : ∀ inner, a.embedded = some inner → BuildsReadable std key inner)
    (hrun : buildAttachment std key i a (s, subs) = .ok u (s', subs')) (hs : Stands s) :
    Stands s' ∧ Grows s.ndb s'.ndb ∧ ∃ n : NodeData,
      subs' = subs.add (attachmentNid i) n.data n.sub ∧
      AttachmentAt std key i a s' ⟨attachmentNid i, n.data, n.sub⟩ := by
  rw [buildAttachment_eq] at hrun
  obtain ⟨⟨heap, subs₂⟩, ⟨s₂, t₂⟩, houter, hrun⟩ := bind_eq_ok.1 hrun
  obtain ⟨hlocal, rfl⟩ := onOuter_eq_ok.1 houter
  obtain ⟨content, ⟨s₁, subs₁⟩, hcontent, hstreams⟩ := bind_eq_ok.1 (withLocal_eq_ok.1 hlocal)
  obtain ⟨w₂, hserialize, rfl⟩ := onStreams_eq_ok.1 hstreams
  obtain ⟨n, ⟨s₃, t₃⟩, hwrite, hadd⟩ := bind_eq_ok.1 hrun
  obtain ⟨hfile, rfl⟩ := onOuter_eq_ok.1 hwrite
  obtain ⟨w₃, hheap, rfl⟩ := onFile_eq_ok.1 hfile
  obtain ⟨rfl, rfl⟩ := addSubnode_eq_ok.1 hadd
  obtain ⟨hs₁, hg₁, hsok₁, hstored⟩ := storeContent_spec ih hcontent hs
  obtain ⟨h, rfl, hok, hroot, hg₂, hsubset, hsok₂, hp⟩ :=
    PropertyContext.serialize_spec hserialize hs₁.sound hsok₁
  obtain ⟨w, hdata, hsub⟩ := writeHeap_eq_ok hheap
  obtain ⟨hg₃, hnode, hdlt, hslt⟩ := nodeAt_of_writes hdata hsub hg₂.sound hok hroot hsok₂
  refine ⟨⟨hg₃.sound, hs₁.names⟩, (hg₁.trans hg₂).trans hg₃, n, rfl, rfl,
    ⟨makeNid_lt _ _, hdlt, hslt⟩, fun store v hc hentry => ?_⟩
  obtain ⟨v', hread, hv'⟩ := hnode.reads hc
  have hc₂ : Covers store w₂ := hc.of_grows hg₃
  cases hstored with
  | @byValue nid hplain hlt hvalue =>
    have hid : tagId (Setter.spilledValue PR_ATTACH_DATA_BIN nid.toUInt32).tag =
        tagId PR_ATTACH_DATA_BIN := congrArg tagId (Setter.tag_spilledValue _ _)
    have hmatches : (Setter.spilledValue PR_ATTACH_DATA_BIN nid.toUInt32).Matches :=
      Setter.matches_spilledValue _ (by decide)
    have hcontext := attachmentContext_reads hid hmatches hp hok hv' hc₂
    have hmoved (blocks : List HeapBlock) : Stored w₂ blocks subs₂.entries nid (leavesOf a.data) :=
      (hvalue blocks).mono hg₂ (fun _ _ hi => hi) hsubset
    have hread' := attachmentData_reads hlt hp hok hv' hc₂ hmoved
    rw [leavesOf_flatten] at hread'
    exact .byValue hentry hread hplain hcontext hread'
  | @message inner m hinner hmem hreads =>
    obtain ⟨v'', hread', hmessage⟩ := hreads store (hc₂.of_grows hg₂)
    have hid :
        tagId (Setter.object PR_ATTACH_DATA_OBJ embeddedNid.toUInt32 (messageSize inner)).tag =
          tagId PR_ATTACH_DATA_BIN := by
      rw [Setter.tag_object]
      decide
    have hmatches : (Setter.object PR_ATTACH_DATA_OBJ embeddedNid.toUInt32
        (messageSize inner)).Matches := Setter.matches_object (by decide)
    exact .message hentry hread hinner (attachmentContext_reads hid hmatches hp hok hv' hc₂)
      (hv'.entry _ (hsubset hmem)) hread' hmessage

/-- The entries of attachments, in their order. -/
structure AttachmentsAt (std : StdSort) (key : RecordKey) (i : Nat) (as : List Attachment)
    (s' : StoreWriter) (added : List SubnodeEntry) : Prop where
  nids : added.map SubnodeEntry.nid = (List.range' i as.length).map attachmentNid
  fits : ∀ e ∈ added, e.Fits
  reads : ∀ j a, as[j]? = some a → ∃ e ∈ added, AttachmentAt std key (i + j) a s' e

theorem buildAttachments_spec {i : Nat} {as : List Attachment} {u : Unit}
    (ih : ∀ a ∈ as, ∀ inner, a.embedded = some inner → BuildsReadable std key inner)
    (hrun : buildAttachments std key i as (s, subs) = .ok u (s', subs')) (hs : Stands s) :
    ∃ added, subs' = { subs with entries := subs.entries ++ added } ∧
      AttachmentsAt std key i as s' added := by
  induction as generalizing i s subs with
  | nil =>
    obtain ⟨-, heq⟩ := pure_eq_ok.1 hrun
    cases heq
    exact ⟨[], by rw [List.append_nil], rfl, fun e he => absurd he List.not_mem_nil,
      fun j a h => by cases h⟩
  | cons a as iha =>
    obtain ⟨_, ⟨s₁, subs₁⟩, hone, hrest⟩ := bind_eq_ok.1 hrun
    obtain ⟨hs₁, -, n, rfl, hat⟩ := buildAttachment_spec (ih a List.mem_cons_self) hone hs
    obtain ⟨added, rfl, hall⟩ := iha (fun a' ha' => ih a' (List.mem_cons_of_mem _ ha')) hrest hs₁
    obtain ⟨-, hg⟩ := buildAttachments_stands hrest hs₁
    refine ⟨⟨attachmentNid i, n.data, n.sub⟩ :: added, ?_, ?_, ?_, ?_⟩
    · rw [SubnodeAllocator.add, List.append_assoc, List.singleton_append]
    · rw [List.map_cons, hall.nids, List.length_cons, List.range'_succ, List.map_cons]
    · intro e he
      rcases List.mem_cons.1 he with rfl | he
      · exact hat.fits
      · exact hall.fits e he
    · intro j a' ha'
      cases j with
      | zero =>
        obtain rfl := Option.some.inj ha'
        exact ⟨_, List.mem_cons_self, hat.mono hg⟩
      | succ j =>
        obtain ⟨e, he, hread⟩ := hall.reads j a' ha'
        rw [Nat.add_assoc, Nat.add_comm 1] at hread
        exact ⟨e, List.mem_cons_of_mem _ he, hread⟩

section

variable {i : Nat} {as : List Attachment} {added : List SubnodeEntry}

theorem AttachmentsAt.mono (h : AttachmentsAt std key i as s added) (hg : Grows s.ndb s'.ndb) :
    AttachmentsAt std key i as s' added := by
  refine ⟨h.nids, h.fits, fun j a hj => ?_⟩
  obtain ⟨e, he, hread⟩ := h.reads j a hj
  exact ⟨e, he, hread.mono hg⟩

theorem AttachmentsAt.type (h : AttachmentsAt std key i as s added) :
    ∀ nid ∈ added.map SubnodeEntry.nid, nidType nid = kNidTypeAttachment := by
  intro nid hnid
  rw [h.nids] at hnid
  obtain ⟨j, -, rfl⟩ := List.mem_map.1 hnid
  exact nidType_makeNid (by decide) _

theorem AttachmentsAt.nodup (h : AttachmentsAt std key 0 as s added)
    (hfew : as.length < 2 ^ 27 - 1) : (added.map SubnodeEntry.nid).Nodup := by
  rw [h.nids]
  refine List.Nodup.map_on (fun i hi j hj => ?_) List.nodup_range'
  have hi' := List.mem_range'_1.1 hi
  have hj' := List.mem_range'_1.1 hj
  exact attachmentNid_inj (by omega) (by omega)

end

/-! ## Messages -/

/-- Subnodes built elsewhere, none of them there already. -/
theorem SubnodeAllocator.Ok.append (hok : subs.Ok) {added : List SubnodeEntry}
    (hfits : ∀ e ∈ added, e.Fits) (htype : ∀ e ∈ added, nidType e.nid ≠ kNidTypeLtp)
    (hnodup : ((subs.entries ++ added).map SubnodeEntry.nid).Nodup) :
    SubnodeAllocator.Ok { subs with entries := subs.entries ++ added } := by
  refine ⟨fun e he => ?_, ?_, fun e he hltp => ?_, fun _ => hnodup⟩
  · rcases List.mem_append.1 he with he | he
    · exact hok.fits e he
    · exact hfits e he
  · have hnext := hok.next
    rw [List.length_append]
    exact hnext.trans (by omega)
  · rcases List.mem_append.1 he with he | he
    · exact hok.spilled e he hltp
    · exact absurd hltp (htype e he)

/-- The subnodes of a message: the two tables, and the attachments between them. -/
theorem messageSubnodes_ok {as : List Attachment} {added : List SubnodeEntry} {nr na : NodeData}
    (hr : nr.Fits) (hadded : AttachmentsAt std key 0 as s added) (hfew : as.length < 2 ^ 27 - 1)
    (ha : na.Fits) :
    ({ entries := ⟨kNidRecipientTable, nr.data, nr.sub⟩ :: added ++
        [⟨kNidAttachmentTable, na.data, na.sub⟩] } : SubnodeAllocator).Ok := by
  have hone : (({} : SubnodeAllocator).add kNidRecipientTable nr.data nr.sub).Ok :=
    SubnodeAllocator.ok_new.add (by decide) hr.1 hr.2 (by decide) List.not_mem_nil
  have hltp : ∀ e ∈ added, nidType e.nid ≠ kNidTypeLtp := by
    intro e he
    rw [hadded.type _ (List.mem_map_of_mem he)]
    decide
  have hnodup : (kNidRecipientTable :: added.map SubnodeEntry.nid).Nodup := by
    refine List.nodup_cons.2 ⟨fun hmem => ?_, hadded.nodup hfew⟩
    exact absurd (hadded.type _ hmem) (by decide)
  refine (hone.append hadded.fits hltp hnodup).add (by decide) ha.1 ha.2 (by decide) fun hmem => ?_
  rcases List.mem_cons.1 hmem with heq | hmem
  · exact absurd heq (show kNidAttachmentTable ≠ kNidRecipientTable by decide)
  · exact absurd (hadded.type _ hmem) (by decide)

theorem buildMessage_reads (m : Message) : BuildsReadable std key m := by
  induction m using Message.induct with
  | step m ih =>
    intro nid embedded heap s s' subs' hrun hs
    rw [buildMessage_eq] at hrun
    obtain ⟨pc, ⟨s₁, t₁⟩, houter, hrun⟩ := bind_eq_ok.1 hrun
    obtain ⟨htake, rfl⟩ := onOuter_eq_ok.1 houter
    obtain ⟨_, ⟨s₂, t₂⟩, hrt, hrun⟩ := bind_eq_ok.1 hrun
    obtain ⟨nr, w₂, hrnode, rfl, rfl⟩ := addTable_eq_ok hrt
    obtain ⟨_, ⟨s₃, t₃⟩, hatts, hrun⟩ := bind_eq_ok.1 hrun
    obtain ⟨_, ⟨s₄, t₄⟩, hat, hstreams⟩ := bind_eq_ok.1 hrun
    obtain ⟨na, w₄, hanode, rfl, rfl⟩ := addTable_eq_ok hat
    obtain ⟨w₅, hserialize, rfl⟩ := onStreams_eq_ok.1 hstreams
    obtain ⟨seen, hseen⟩ := hs.names
    obtain ⟨created, modified, hdated, rfl, hndb₁, hnames₁⟩ := takeProperties_spec htake
    have hs₁ : Stands s₁ := ⟨hndb₁ ▸ hs.sound, _, hnames₁ ▸ hseen.buildNames m⟩
    obtain ⟨hg₂, hrfits, hrtable, hrfew⟩ := TableContext.rows_spec_of (tabular_recipients m)
      (fun h => recipientIds_nodup h) hrnode hs₁.sound
    have hs₂ : Stands { s₁ with ndb := w₂ } := ⟨hg₂.sound, hs₁.names⟩
    obtain ⟨hs₃, hg₃⟩ := buildAttachments_stands hatts hs₂
    obtain ⟨added, rfl, hadded⟩ := buildAttachments_spec ih hatts hs₂
    obtain ⟨hg₄, hafits, hatable, hafew⟩ := TableContext.rows_spec_of (tabular_attachments m)
      (fun h => attachmentIds_nodup (attachments_few h)) hanode hs₃.sound
    have hfew := attachments_few hafew
    have hok₄ := messageSubnodes_ok hrfits hadded hfew hafits
    obtain ⟨h, rfl, hok, hroot, hg₅, hsubset, hsok, hp⟩ :=
      PropertyContext.serialize_spec hserialize hg₄.sound hok₄
    refine ⟨h, rfl, hok, hroot, hsok, fun store n hc hreads => ?_⟩
    have hc₄ : Covers store w₄ := hc.of_grows hg₅
    have hentry {e : SubnodeEntry} (he : e ∈ ⟨kNidRecipientTable, nr.data, nr.sub⟩ :: added ++
        [⟨kNidAttachmentTable, na.data, na.sub⟩]) : n.subnode e.nid = some e :=
      hreads.entry e (hsubset he)
    obtain ⟨tr, htr, hrows⟩ := (hrtable.mono (hg₃.trans hg₄)).hasRows (tabular_recipients m)
      (recipientIds_nodup hrfew) hc₄
    obtain ⟨ta, hta, hrows'⟩ := hatable.hasRows (tabular_attachments m)
      (attachmentIds_nodup hfew) hc₄
    refine .intro (propertiesRead_of hseen hdated hserialize hp hok hreads hc)
      ⟨_, tr, hentry List.mem_cons_self, htr, hrows⟩
      ⟨_, ta, hentry (List.mem_append_right _ (List.mem_singleton_self _)), hta, hrows'⟩
      fun i a hi => ?_
    have hadded₄ : AttachmentsAt std key 0 m.attachments { s₃ with ndb := w₄ } added :=
      hadded.mono hg₄
    obtain ⟨e, he, hat⟩ := hadded₄.reads i a hi
    rw [Nat.zero_add] at hat
    have hfound := hentry (List.mem_append_left _ (List.mem_cons_of_mem _ he))
    exact hat.reads store n hc₄ (hat.nid ▸ hfound)

end

end Pst
end Imap2Pst
