import Imap2Pst.Pst.MessageContext
import Imap2Pst.Pst.BuildMessage

/-!
# Pst.MessageReads

What a reader is to find in the node of a message: the properties, the recipients, the
attachments, and the messages in them, to any depth.

* `MessageReads`        — the node reads as the message.
* `propertiesRead_of`   — a context with the calls for a message reads so.
* `tabular_recipients`, `tabular_attachments` — the rows are fit for a table.
-/

namespace Imap2Pst
namespace Pst

open CxxStd

/-! ## A message as it reads -/

section

variable (store : Store) (key : RecordKey)

/-- The context has the properties whose condition holds, and up to `last` no others. -/
structure ContextReads (n : NodeView) (calls : List (Bool × Setter)) (last : Nat) : Prop where
  found : ∀ p ∈ calls, p.2.kept.read.isSome →
    readProperty store n (tagId p.2.tag) = callValue p
  others : ∀ id ≤ last, id ∉ calls.map (fun p => tagId p.2.tag) → readProperty store n id = none

/-- The properties of a message. The time stands in only when no time is known. -/
structure PropertiesRead (nid : Nat) (embedded : Bool) (n : NodeView) (m : Message) : Prop where
  context : ∃ created modified, (m.delivered ≠ 0 → created = m.delivered ∧ modified = m.delivered) ∧
    ContextReads store n (messageCalls key nid embedded created modified m) kFirstNamedId
  keywords : m.keywords ≠ [] →
    readStringArray (PropertyContext.stringArray m.keywords) = m.keywords.map utf8ToUtf16le

/-- A subnode with a table of these rows. -/
def SubtableReads (n : NodeView) (nid : Nat) (columns : List Nat) (rows : List RowCalls) : Prop :=
  ∃ e t, n.subnode nid = some e ∧ readTable store e.data e.sub = some t ∧ t.HasRows columns rows

/-- The properties of an attachment, its content left open. -/
def attachmentCalls (i : Nat) (a : Attachment) (content : Setter) : List (Bool × Setter) :=
  [(true, .int32 PR_ATTACH_METHOD (attachmentMethod a).toUInt32),
    (true, .int32 PR_ATTACH_NUM i.toUInt32), (true, .int32 PR_ATTACH_RENDERING_POS 0xFFFFFFFF),
    (true, .int32 PR_OBJECT_TYPE MAPI_ATTACH.toUInt32),
    (true, .string PR_DISPLAY_NAME (attachmentName i a)),
    (true, .string PR_ATTACH_FILENAME (attachmentName i a)),
    (true, .string PR_ATTACH_LONG_FILENAME (attachmentName i a)),
    (a.contentType ≠ [], .string PR_ATTACH_MIME_TAG a.contentType),
    (a.contentId ≠ [], .string PR_ATTACH_CONTENT_ID a.contentId),
    (true, .int32 PR_ATTACH_SIZE (attachSize i a).toUInt32), (true, content)]

mutual

/-- The node reads as the message. -/
inductive MessageReads : Nat → Bool → NodeView → Message → Prop
  | intro {nid : Nat} {embedded : Bool} {n : NodeView} {m : Message}
      (properties : PropertiesRead store key nid embedded n m)
      (recipients : SubtableReads store n kNidRecipientTable recipientColumns (recipientRows m))
      (table : SubtableReads store n kNidAttachmentTable attachmentColumns (attachmentRows m))
      (attachments : ∀ i a, m.attachments[i]? = some a → AttachmentReads n i a) :
      MessageReads nid embedded n m

/-- A subnode of the node reads as attachment `i`: its octets, or a message in its own right. -/
inductive AttachmentReads : NodeView → Nat → Attachment → Prop
  | byValue {n v : NodeView} {e : SubnodeEntry} {i nid : Nat} {a : Attachment}
      (entry : n.subnode (attachmentNid i) = some e)
      (node : readNode store e.data e.sub = some v) (plain : a.embedded = none)
      (context : ContextReads store v (attachmentCalls i a
        (.spilledValue PR_ATTACH_DATA_BIN nid.toUInt32)) (2 ^ 16))
      (data : readProperty store v (tagId PR_ATTACH_DATA_BIN) =
        some (kPtBinary, .octets a.data)) : AttachmentReads n i a
  | message {n v v' : NodeView} {e e' : SubnodeEntry} {i : Nat} {a : Attachment} {inner : Message}
      (entry : n.subnode (attachmentNid i) = some e)
      (node : readNode store e.data e.sub = some v) (embedded : a.embedded = some inner)
      (context : ContextReads store v (attachmentCalls i a
        (.object PR_ATTACH_DATA_OBJ embeddedNid.toUInt32 (messageSize inner))) (2 ^ 16))
      (entry' : v.subnode embeddedNid = some e') (node' : readNode store e'.data e'.sub = some v')
      (message : MessageReads embeddedNid true v' inner) : AttachmentReads n i a

end

end

/-! ## Contexts -/

/-- A context that has these calls, each for a property of its own, reads so. -/
theorem contextReads_of {w : NdbWriter} {h : HeapNode} {entries : List SubnodeEntry}
    {pc : PropertyContext} (hp : PcAt w h entries pc) (hok : h.Ok) {n : NodeView}
    (hreads : NodeReads n h entries) {store : Store} (hc : Covers store w)
    {calls : List (Bool × Setter)} {shape : List (Nat × Nat)}
    (hshape : calls.map (fun p => p.2.shape) = shape)
    (hnodup : (shape.map fun s => tagId s.1).Nodup)
    (hmatching : ∀ s ∈ shape, fixedPropSize (tagType s.1) = s.2) {last : Nat}
    (hlast : ∀ s ∈ shape, tagId s.1 ≤ last)
    (hfind : ∀ id ≤ last, pc.find id = (built (made calls)).find id) :
    ContextReads store n calls last := by
  have hids : calls.map (fun p => tagId p.2.tag) = shape.map fun s => tagId s.1 := by
    rw [← hshape, List.map_map]
    rfl
  have hmem (p : Bool × Setter) (hp : p ∈ calls) : p.2.shape ∈ shape :=
    hshape ▸ List.mem_map.2 ⟨p, hp, rfl⟩
  have hnodup' : (calls.map fun p => tagId p.2.tag).Nodup := by rw [hids]; exact hnodup
  have hfound (q : Bool × Setter) (hq : q ∈ calls) :
      pc.find (tagId q.2.tag) = (built (made calls)).find (tagId q.2.tag) :=
    hfind _ (hlast q.2.shape (hmem q hq))
  refine ⟨fun p hpm hkept => ?_, fun id hid hnot => ?_⟩
  · have hmatches : p.2.Matches := hmatching p.2.shape (hmem p hpm)
    exact hp.calls hok hreads hc hnodup' hfound hpm hmatches hkept
  · refine (hp.reads_view hok hreads hc).2 id ?_
    rw [hfind id hid]
    exact PropertyContext.find_built_none (lastSetter_none (mt (made_ids_subset calls ·) hnot))

/-- The context of a message reads as it should. -/
theorem propertiesRead_of {std : StdSort} {key : RecordKey} {nid : Nat} {embedded : Bool}
    {created modified : Int} {m : Message} {names : NameIdMap} {seen : List Bytes}
    (hnames : HoldsNames seen names)
    (hdated : m.delivered ≠ 0 → created = m.delivered ∧ modified = m.delivered)
    {heap : Bytes} {t t' : NdbWriter × SubnodeAllocator}
    (hrun : (messageProperties key nid embedded created modified m names).1.serialize std t =
      .ok heap t')
    {w : NdbWriter} {h : HeapNode} {entries : List SubnodeEntry}
    (hp : PcAt w h entries (messageProperties key nid embedded created modified m names).1)
    (hok : h.Ok) {n : NodeView} (hreads : NodeReads n h entries) {store : Store}
    (hc : Covers store w) : PropertiesRead store key nid embedded n m := by
  refine ⟨⟨created, modified, hdated, contextReads_of hp hok hreads hc
    (shape_messageCalls key nid embedded created modified m) messageShapes_nodup
    messageShapes_matching (by decide) fun id hid => find_messageProperties hnames hid⟩,
    fun hm => ?_⟩
  have hcall : (decide (m.keywords ≠ []),
      Setter.stringArray (makeTag kFirstNamedId kPtMvUnicode) m.keywords) ∈
        messageCalls key nid embedded created modified m := by
    simp [messageCalls, keywordCalls]
  have hids : ((messageCalls key nid embedded created modified m).map
      fun p => tagId p.2.tag).Nodup := by
    have hnodup := messageShapes_nodup
    rw [← shape_messageCalls key nid embedded created modified m, List.map_map] at hnodup
    exact hnodup
  have hset := lastSetter_made hids hcall
  have hid : tagId (makeTag kFirstNamedId kPtMvUnicode) = kFirstNamedId := by decide
  have hfind : (messageProperties key nid embedded created modified m names).1.find kFirstNamedId =
      some (makeTag kFirstNamedId kPtMvUnicode,
        .bytes (PropertyContext.stringArray m.keywords)) := by
    rw [find_messageProperties hnames le_rfl, find_built, ← hid]
    rw [if_pos (decide_eq_true hm)] at hset
    exact congrArg (Option.map fun c => (c.tag, c.kept)) hset
  exact PropertyContext.readStringArray_stringArray
    (short_of_written hrun (List.mem_of_find?_eq_some hfind))

/-- The tags of an attachment but that of its content, with the widths of their values. -/
def attachmentShapes : List (Nat × Nat) :=
  [(PR_ATTACH_METHOD, 4), (PR_ATTACH_NUM, 4), (PR_ATTACH_RENDERING_POS, 4), (PR_OBJECT_TYPE, 4),
    (PR_DISPLAY_NAME, 0), (PR_ATTACH_FILENAME, 0), (PR_ATTACH_LONG_FILENAME, 0),
    (PR_ATTACH_MIME_TAG, 0), (PR_ATTACH_CONTENT_ID, 0), (PR_ATTACH_SIZE, 4)]

theorem made_attachmentCalls (i : Nat) (a : Attachment) (content : Setter) :
    content.apply (built (attachmentSetters i a)) = built (made (attachmentCalls i a content)) := by
  by_cases htype : a.contentType = [] <;> by_cases hid : a.contentId = [] <;>
    simp [made, attachmentCalls, attachmentSetters, built, htype, hid]

theorem shape_attachmentCalls (i : Nat) (a : Attachment) (content : Setter) :
    (attachmentCalls i a content).map (fun p => p.2.shape) =
      attachmentShapes ++ [content.shape] := by
  simp only [attachmentCalls, attachmentShapes, List.map_cons, List.map_nil, Setter.shape,
    Setter.tag, Setter.width, List.cons_append, List.nil_append]

/-! ## The tables -/

theorem tabular_recipients (m : Message) : Tabular recipientColumns (recipientRows m) := by
  refine Tabular.of_shape (recipientRow 0 {} 0).shape (by decide) (by decide)
    (fun r hr => ?_) (fun r hr => ?_) (by decide) (by decide) (by decide)
  · obtain ⟨p, -, rfl⟩ := List.mem_map.1 hr
    exact Nat.mod_lt _ (by decide)
  · obtain ⟨p, -, rfl⟩ := List.mem_map.1 hr
    rfl

theorem tabular_attachments (m : Message) : Tabular attachmentColumns (attachmentRows m) := by
  refine Tabular.of_shape (attachmentRow 0 {}).shape (by decide) (by decide)
    (fun r hr => ?_) (fun r hr => ?_) (by decide) (by decide) (by decide)
  · obtain ⟨p, -, rfl⟩ := List.mem_map.1 hr
    exact makeNid_lt _ _
  · obtain ⟨p, -, rfl⟩ := List.mem_map.1 hr
    rfl

/-- The ids of rows that are numbered differ when the numbers do. -/
theorem nodup_rowIds {α : Type} {l : List α} {row : α × Nat → RowCalls} {f : Nat → Nat}
    (hid : ∀ p, (row p).rowId = f p.2)
    (hinj : ∀ i < l.length, ∀ j < l.length, f i = f j → i = j) :
    ((l.zipIdx.map row).map RowCalls.rowId).Nodup := by
  have hids : (l.zipIdx.map row).map RowCalls.rowId = (List.range' 0 l.length).map f := by
    rw [← List.zipIdx_map_snd 0 l, List.map_map, List.map_map]
    exact List.map_congr_left fun p _ => hid p
  rw [hids]
  refine List.Nodup.map_on (fun i hi j hj => ?_) List.nodup_range'
  have hi' := List.mem_range'_1.1 hi
  have hj' := List.mem_range'_1.1 hj
  exact hinj i (by omega) j (by omega)

theorem recipientIds_nodup {m : Message}
    (hfew : (recipientRows m).length * (layout (declared recipientColumns)).tciBm ≤ 2 ^ 32) :
    ((recipientRows m).map RowCalls.rowId).Nodup := by
  have hsize : (layout (declared recipientColumns)).tciBm = 52 := by decide
  rw [hsize, recipientRows, List.length_map, List.length_zipIdx] at hfew
  refine nodup_rowIds (f := fun i => (1 + i) % 2 ^ 32) (fun _ => rfl) fun i hi j hj h => ?_
  omega

theorem attachmentNid_inj {i j : Nat} (hi : i < 2 ^ 27 - 1) (hj : j < 2 ^ 27 - 1)
    (h : attachmentNid i = attachmentNid j) : i = j := by
  rw [attachmentNid, attachmentNid, makeNid_of_lt (by decide) (by omega),
    makeNid_of_lt (by decide) (by omega)] at h
  omega

/-- A table of attachments that is written has fewer rows than there are NIDs. -/
theorem attachments_few {m : Message}
    (hfew : (attachmentRows m).length * (layout (declared attachmentColumns)).tciBm ≤ 2 ^ 32) :
    m.attachments.length < 2 ^ 27 - 1 := by
  have hsize : (layout (declared attachmentColumns)).tciBm = 42 := by decide
  rw [hsize, attachmentRows, List.length_map, List.length_zipIdx] at hfew
  omega

theorem attachmentIds_nodup {m : Message} (hfew : m.attachments.length < 2 ^ 27 - 1) :
    ((attachmentRows m).map RowCalls.rowId).Nodup :=
  nodup_rowIds (fun _ => rfl) fun _ hi _ hj h =>
    attachmentNid_inj (hi.trans hfew) (hj.trans hfew) h

end Pst
end Imap2Pst
