import Imap2Pst.Pst.MessageProperties

/-!
# Pst.BuildMessage

`PstWriter::buildMessage` of `pst/pst_writer.cpp`: the node of a message, whether in a folder or
embedded in an attachment, with the subnodes for its recipients and attachments.

* `StoreWriter` — what building a message works on.
* `buildMessage` — the heap of a message; the subnodes go to the allocator of its node.
-/

namespace Imap2Pst

open CxxStd

/-- What holds of a message when it holds of those embedded in it. -/
theorem Message.induct {P : Message → Prop}
    (step : ∀ m, (∀ a ∈ m.attachments, ∀ inner, a.embedded = some inner → P inner) → P m)
    (m : Message) : P m := by
  refine step m fun a ha inner hinner => Message.induct step inner
termination_by sizeOf m
decreasing_by
  have hattached := List.sizeOf_lt_of_mem ha
  cases a
  cases m
  simp only [AttachmentOf.mk.sizeOf_spec, Message.mk.sizeOf_spec] at *
  subst hinner
  simp only [Option.some.sizeOf_spec] at hattached
  omega

namespace Pst

/-! ## The state -/

/-- The file, the name-to-id map, and what the clock will say, call by call. -/
structure StoreWriter where
  ndb : NdbWriter
  names : NameIdMap := {}
  clock : Nat → Int

/-- Calls of a body with a subnode allocator of its own. -/
abbrev Storing := EStateM PstError (StoreWriter × SubnodeAllocator)

section

variable {α : Type}

/-- A call on the file. -/
def onFile (x : Ndb α) : EStateM PstError StoreWriter α :=
  onto StoreWriter.ndb (fun w s => { s with ndb := w }) x

/-- A call on the file and the allocator. -/
def onStreams (x : Streaming SubnodeAllocator α) : Storing α :=
  onto (fun p => (p.1.ndb, p.2)) (fun q p => ({ p.1 with ndb := q.1 }, q.2)) x

end

def nowUnix : EStateM PstError StoreWriter Int := do
  let s ← get
  set { s with clock := fun k => s.clock (k + 1) }
  return s.clock 0

/-- The delivery of a message, or the time now. -/
def timeOr (delivered : Int) : EStateM PstError StoreWriter Int :=
  if delivered ≠ 0 then pure delivered else nowUnix

/-! ## Nodes -/

section

variable (std : StdSort)

/-- The blocks of a node from its heap and its subnodes. -/
def writeHeap (heap : Bytes) (entries : List SubnodeEntry) : Ndb NodeData := do
  let data ← writeData heap
  let sub ← writeSubnodes std entries
  return ⟨data, sub⟩

/-- A subnode of this node, written elsewhere. -/
def addSubnode (nid : Nat) (n : NodeData) : Storing Unit :=
  modify fun (s, subs) => (s, subs.add nid n.data n.sub)

/-- A table in a subnode of this node. -/
def addTable (nid : Nat) (columns : List Nat) (rows : List RowCalls) : Storing Unit := do
  let n ← onOuter (onFile (TableContext.node std columns (tableCalls rows)))
  addSubnode nid n

/-- The properties of a message; the names of its headers get their ids. -/
def takeProperties (key : RecordKey) (nid : Nat) (embedded : Bool) (m : Message) :
    EStateM PstError StoreWriter PropertyContext := do
  let created ← timeOr m.delivered
  let modified ← timeOr m.delivered
  modifyGet fun s =>
    let (pc, names) := messageProperties key nid embedded created modified m s.names
    (pc, { s with names })

/-- The NID of an embedded message, in the subnodes of its attachment. -/
def embeddedNid : Nat := makeNid kNidTypeNormalMessage 1

/-! ## Messages -/

mutual

def buildMessage (key : RecordKey) (nid : Nat) (embedded : Bool) : Message → Storing Bytes
  | m@{ attachments, .. } => do
    let pc ← onOuter (takeProperties key nid embedded m)
    addTable std kNidRecipientTable recipientColumns (recipientRows m)
    buildAttachments key 0 attachments
    -- the table is there even when it is empty
    addTable std kNidAttachmentTable attachmentColumns (attachmentRows m)
    onStreams (pc.serialize std)
termination_by structural m => m

/-- The loop over the attachments. Its rows are in memory until it is over. -/
def buildAttachments (key : RecordKey) (i : Nat) : List Attachment → Storing Unit
  | [] => pure ()
  | a :: rest => do
    buildAttachment key i a
    buildAttachments key (i + 1) rest
termination_by structural as => as

def buildAttachment (key : RecordKey) (i : Nat) : Attachment → Storing Unit
  | a@{ data, embedded, .. } => do
    let (heap, subs) ← onOuter (withLocal {} do
      let content ← storeContent key data embedded
      onStreams ((content.apply (built (attachmentSetters i a))).serialize std))
    let n ← onOuter (onFile (writeHeap std heap subs.entries))
    addSubnode (attachmentNid i) n
termination_by structural a => a

/-- The content of an attachment: its octets in a subnode, or a message in its own right. -/
def storeContent (key : RecordKey) (data : Bytes) : Option Message → Storing Setter
  | none => do
    let nid ← onStreams (SubnodeAllocator.spill data)
    return .spilledValue PR_ATTACH_DATA_BIN nid.toUInt32
  | some inner => do
    let (heap, subs) ← onOuter (withLocal {} (buildMessage key embeddedNid true inner))
    let n ← onOuter (onFile (writeHeap std heap subs.entries))
    addSubnode embeddedNid n
    return .object PR_ATTACH_DATA_OBJ embeddedNid.toUInt32 (messageSize inner)
termination_by structural e => e

end

theorem buildMessage_eq (key : RecordKey) (nid : Nat) (embedded : Bool) (m : Message) :
    buildMessage std key nid embedded m = (do
      let pc ← onOuter (takeProperties key nid embedded m)
      addTable std kNidRecipientTable recipientColumns (recipientRows m)
      buildAttachments std key 0 m.attachments
      addTable std kNidAttachmentTable attachmentColumns (attachmentRows m)
      onStreams (pc.serialize std)) := by
  cases m
  rfl

theorem buildAttachment_eq (key : RecordKey) (i : Nat) (a : Attachment) :
    buildAttachment std key i a = (do
      let (heap, subs) ← onOuter (withLocal {} do
        let content ← storeContent std key a.data a.embedded
        onStreams ((content.apply (built (attachmentSetters i a))).serialize std))
      let n ← onOuter (onFile (writeHeap std heap subs.entries))
      addSubnode (attachmentNid i) n) := by
  cases a
  rfl

end

end Pst
end Imap2Pst
