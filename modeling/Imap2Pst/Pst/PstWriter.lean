import Imap2Pst.Pst.BuildMessage
import Imap2Pst.Pst.Folders

/-!
# Pst.PstWriter

The public face of the PST module, translated from `pst/pst_writer.cpp`: folders are created,
messages dropped into them, and `finish` writes the rest.

* `PstWriter` — the state; a folder's contents table stands beside the folder.
* `create`, `createFolder`, `addMessage`, `finish` — the calls.
* `PstCall` — what a caller may do until it finishes.
-/

namespace Imap2Pst
namespace Pst

open CxxStd

/-- `PstWriter`. The contents tables are in the order of the folders. -/
structure PstWriter extends StoreWriter where
  folders : FolderTable := {}
  contents : List StreamingTable := []
  storeGuid : RecordKey
  rootFolder : Nat := kNidRootFolder
  ipmSubtree : Nat := 0
  deletedItems : Nat := 0
  sentItems : Nat := 0
  outbox : Nat := 0
  searchRoot : Nat := 0
  views : Nat := 0
  commonViews : Nat := 0
  nextMessageIndex : Nat := kFirstUserNidIndex
  finished : Bool := false

abbrev Writing := EStateM PstError PstWriter

namespace PstWriter

section

variable {α : Type}

/-- A call on what building a message works on. -/
def onStore (x : EStateM PstError StoreWriter α) : Writing α :=
  onto toStoreWriter (fun s w => { w with toStoreWriter := s }) x

/-- A call on the file. -/
def onDisk (x : Ndb α) : Writing α := onStore (onFile x)

/-- A call on the contents table of the folder at this place. -/
def onContents (i : Nat) (x : Streaming StreamingTable α) : Writing α :=
  onto (fun w => (w.ndb, w.contents.getD i (.create [])))
    (fun q w => { w with ndb := q.1, contents := w.contents.set i q.2 }) x

end

/-! ## Folders -/

def makeFolder (parent : Nat) (name : Bytes) (forcedNid : Nat) (w : PstWriter) : Nat × PstWriter :=
  let (id, folders) := w.folders.makeFolder parent name forcedNid
  (id, { w with folders, contents := w.contents ++ [.create contentsColumns] })

/-- The root folder, which is its own parent. -/
def makeRoot (w : PstWriter) : PstWriter :=
  let (root, w) := w.makeFolder 0 (str "Root - Mailbox") kNidRootFolder
  { w with folders := w.folders.update root fun f => { f with parent := kNidRootFolder } }

/-- `init`. Every folder the message store advertises is real. -/
def init (w : PstWriter) : PstWriter :=
  let w := makeRoot { w with names := initNames }
  let (ipmSubtree, w) := w.makeFolder kNidRootFolder (str "Top of Personal Folders") 0
  let (deletedItems, w) := w.makeFolder ipmSubtree (str "Deleted Items") 0
  let (sentItems, w) := w.makeFolder ipmSubtree (str "Sent Items") 0
  let (outbox, w) := w.makeFolder ipmSubtree (str "Outbox") 0
  let (searchRoot, w) := w.makeFolder w.rootFolder (str "Search Root") 0
  let (views, w) := w.makeFolder w.rootFolder (str "Views") 0
  let (commonViews, w) := w.makeFolder w.rootFolder (str "Common Views") 0
  { w with ipmSubtree, deletedItems, sentItems, outbox, searchRoot, views, commonViews }

/-- The members before the constructor runs. -/
def blank (key : RecordKey) (fate : Nat → Bool) (clock : Nat → Int) : PstWriter where
  ndb := { fate }
  clock
  storeGuid := key

/-- The constructor. -/
def create : Writing Unit := do
  onDisk openWriter
  modify init

def createFolder (parent : Nat) (name : Bytes) : Writing Nat := do
  let w ← get
  match w.folders.folder? parent with
  | none => throw ⟨"unknown folder id " ++ toString parent⟩
  | some _ =>
    let (id, w) := w.makeFolder parent name 0
    set w
    return id

section

variable (std : StdSort)

/-! ## Messages -/

def writeNodeFromHeap (nid parent : Nat) (heap : Bytes) (subs : SubnodeAllocator) : Ndb Unit := do
  let n ← writeHeap std heap subs.entries
  addNode nid n.data n.sub parent

/-- The first half of `addMessage`: the node of the message. -/
def addMessageNode (folderId nid : Nat) (m : Message) : Writing Unit := do
  let w ← get
  let (heap, subs) ← onStore (withLocal {} (buildMessage std w.storeGuid nid false m))
  onDisk (writeNodeFromHeap std nid folderId heap subs)

def addMessage (folderId : Nat) (m : Message) : Writing Unit := do
  let w ← get
  match w.folders.folders.findIdx? fun f => f.nid = folderId with
  | none => throw ⟨"unknown folder id " ++ toString folderId⟩
  | some i =>
    let nid := makeNid kNidTypeNormalMessage w.nextMessageIndex
    set { w with nextMessageIndex := (w.nextMessageIndex + 1) % 2 ^ 32 }
    addMessageNode std folderId nid m
    onContents i (StreamingTable.writeRow (contentsRow nid m))
    modify fun w => { w with folders := w.folders.countMessage folderId m.seen }

/-! ## The rest of the file -/

/-- A node with a property context. -/
def writeProperties (nid parent : Nat) (pc : PropertyContext) : Ndb Unit := do
  let (heap, subs) ← withLocal {} (pc.serialize std)
  writeNodeFromHeap std nid parent heap subs

/-- A node with a table. -/
def writeTable (nid parent : Nat) (columns : List Nat) (rows : List RowCalls) : Ndb Unit := do
  let n ← TableContext.node std columns (tableCalls rows)
  addNode nid n.data n.sub parent

/-- A template: the NID and the columns. -/
def kTemplates : List (Nat × List Nat) :=
  [(makeNid kNidTypeHierarchyTable 0x30,
      [0x0E300102, 0x0E330014, 0x0E340102, 0x0E380003, 0x3001001F, 0x36020003, 0x36030003,
        0x360A000B, 0x3613001F, 0x66350003, 0x66360003]),
    (makeNid kNidTypeContentsTable 0x30,
      [0x00170003, 0x001A001F, 0x00360003, 0x0037001F, 0x00390040, 0x0042001F, 0x0057000B,
        0x0058000B, 0x0070001F, 0x00710102, 0x0E03001F, 0x0E04001F, 0x0E060040, 0x0E070003,
        0x0E080003, 0x0E170003, 0x0E300102, 0x0E330014, 0x0E340102, 0x0E380003, 0x0E3C0102,
        0x0E3D0102, 0x10970003, 0x30080040, 0x30130102, 0x65C60003]),
    (makeNid kNidTypeAssocContentsTable 0x30,
      [0x001A001F, 0x0E070003, 0x0E170003, 0x3001001F, 0x6800001F, 0x6803000B, 0x68051003,
        0x682F001F, 0x70030003, 0x70040102, 0x70050102, 0x7006001F, 0x70070003]),
    (makeNid kNidTypeSearchContentsTable 0x30,
      [0x00170003, 0x001A001F, 0x00360003, 0x0037001F, 0x0042001F, 0x0057000B, 0x0058000B,
        0x0E03001F, 0x0E04001F, 0x0E05001F, 0x0E060040, 0x0E070003, 0x0E080003, 0x0E170003,
        0x0E2A000B, 0x30080040, 0x67F10003]),
    (makeNid kNidTypeReceiveFolderTable 0x31, [0x001A001F, 0x66050003]),
    (makeNid kNidTypeOutgoingQueueTable 0x32,
      [0x000F0040, 0x00390040, 0x0E070003, 0x0E100003, 0x0E140003, 0x0E29001F, 0x67F10003]),
    (makeNid kNidTypeAttachmentTable 0x33, [0x0E200003, 0x3704001F, 0x37050003, 0x370B0003]),
    (makeNid kNidTypeRecipientTable 0x34,
      [0x0C150003, 0x0E0F000B, 0x0FF90102, 0x0FFE0003, 0x0FFF0102, 0x3001001F, 0x3002001F,
        0x3003001F, 0x300B0102, 0x39000003, 0x39FF001F, 0x3A40000B]),
    (makeNid 0x16 0x35, [0x0E330014, 0x0E370102, 0x0E380003]),
    (makeNid 0x17 0x36,
      [0x001A001F, 0x0E300102, 0x0E310102, 0x0E330014, 0x0E340102, 0x0E380003, 0x0E3E0102]),
    (makeNid 0x18 0x37, [0x0E330014, 0x30070040])]

/-- The one entry of the receive-folder table, for messages of any class. -/
def templateRows (ipmSubtree nid : Nat) : List RowCalls :=
  if nid = makeNid kNidTypeReceiveFolderTable 0x31 then
    [⟨ipmSubtree, [(PR_MESSAGE_CLASS, .string []), (PR_PST_RECEIVE_FOLDER, .int32 ipmSubtree)]⟩]
  else []

/-- An index for the reader to fill. The user root is an item that holds the HID of the tree. -/
def indexHeap (keySize : Nat) : EStateM PstError HeapNode Unit := do
  let slot ← HeapNode.alloc (List.replicate 4 0)
  let bth ← buildBth std keySize 4 []
  HeapNode.patch slot (le 4 bth)
  modify (HeapNode.setUserRoot slot)

def writeIndex (nid : Nat) (clientSig : Byte) (keySize : Nat) : Ndb Unit := do
  let (_, hn) ← withLocal ({ clientSig } : HeapNode) (onLocal (indexHeap std keySize))
  writeNodeFromHeap std nid 0 hn.serialize {}

def writeReservedNodes (ipmSubtree : Nat) : Ndb Unit := do
  let _ ← each (fun t : Nat × List Nat =>
    writeTable std t.1 0 t.2 (templateRows ipmSubtree t.1)) kTemplates
  let data ← writeData []
  addNode kNidSearchActivityList data 0 0
  addNode kNidSearchDomainObject 0 0 0
  writeIndex std kNidHmpGuidMap kHnSigHmpGuid 16
  writeIndex std kNidHmpIdMap kHnSigHmpId 4
  -- declared, with no data at all
  let _ ← each (fun nid => addNode nid 0 0 0) [kNidSearchManagementQ, 0xE41, 0xEC1, 0xF21]

/-- The properties of the message store. -/
def storeSetters (w : PstWriter) : List Setter :=
  [.binary PR_RECORD_KEY w.storeGuid.toList, .int32 PR_PST_PASSWORD 0,
    .string PR_DISPLAY_NAME (str "Personal Folders"),
    .binary PR_IPM_SUBTREE_ENTRYID (entryId w.storeGuid w.ipmSubtree),
    .binary PR_IPM_WASTEBASKET_ENTRYID (entryId w.storeGuid w.deletedItems),
    .binary PR_IPM_SENTMAIL_ENTRYID (entryId w.storeGuid w.sentItems),
    .binary PR_IPM_OUTBOX_ENTRYID (entryId w.storeGuid w.outbox),
    .binary PR_FINDER_ENTRYID (entryId w.storeGuid w.searchRoot),
    .binary PR_VIEWS_ENTRYID (entryId w.storeGuid w.views),
    .binary PR_COMMON_VIEWS_ENTRYID (entryId w.storeGuid w.commonViews),
    .binary PR_ENTRYID (entryId w.storeGuid w.rootFolder),
    .int32 PR_VALID_FOLDER_MASK (0x01 ||| 0x04 ||| 0x08 ||| 0x10 ||| 0x20 ||| 0x40 ||| 0x80)]

def writeMessageStore (w : PstWriter) : Ndb Unit :=
  writeProperties std kNidMessageStore 0 (built (storeSetters w))

def writeNameIdMap (names : NameIdMap) : Ndb Unit :=
  writeProperties std kNidNameToIdMap 0 names.buildPropertyContext

def hierarchyColumns : List Nat :=
  [PR_DISPLAY_NAME, PR_CONTENT_COUNT, PR_CONTENT_UNREAD, PR_SUBFOLDERS, PR_CONTAINER_CLASS,
    PR_REPL_ITEMID, PR_REPL_CHANGENUM, PR_REPL_VERSION_HISTORY, PR_REPL_FLAGS,
    PR_PST_HIDDEN_COUNT, PR_PST_HIDDEN_UNREAD]

def associatedColumns : List Nat :=
  [PR_MESSAGE_CLASS, PR_DISPLAY_NAME, PR_VD_NAME, PR_VD_FLAGS, PR_VD_VERSION, PR_VD_STRINGS,
    PR_VIEW_DESCRIPTOR_FLAGS, PR_VIEW_DESCRIPTOR_LINKTO, PR_VIEW_DESCRIPTOR_VIEWFLD,
    PR_VIEW_DESCRIPTOR_NAME, PR_VIEW_DESCRIPTOR_VERSION]

/-- The properties of a folder. -/
def folderSetters (key : RecordKey) (f : Folder) : List Setter :=
  [.string PR_DISPLAY_NAME f.name, .int32 PR_CONTENT_COUNT f.messageCount.toUInt32,
    .int32 PR_CONTENT_UNREAD f.unread.toUInt32, .bool PR_SUBFOLDERS (!f.children.isEmpty),
    .string PR_CONTAINER_CLASS (str "IPF.Note"), .binary PR_ENTRYID (entryId key f.nid),
    .binary PR_RECORD_KEY (entryId key f.nid)]

/-- The row of a folder in the hierarchy table of its parent. -/
def hierarchyRow (c : Folder) : RowCalls where
  rowId := c.nid
  sets :=
    [(PR_DISPLAY_NAME, .string c.name), (PR_CONTENT_COUNT, .int32 (c.messageCount % 2 ^ 32)),
      (PR_CONTENT_UNREAD, .int32 c.unread), (PR_SUBFOLDERS, .bool (!c.children.isEmpty)),
      (PR_CONTAINER_CLASS, .string (str "IPF.Note"))]

/-- `folder`, which throws. -/
def childRow (t : FolderTable) (nid : Nat) : Writing RowCalls :=
  match t.folder? nid with
  | none => throw ⟨"unknown folder id " ++ toString nid⟩
  | some c => pure (hierarchyRow c)

/-- One pass of the loop of `writeFolders`. -/
def writeFolder (f : Folder) (i : Nat) : Writing Unit := do
  let w ← get
  onDisk (writeProperties std f.nid f.parent (built (folderSetters w.storeGuid f)))
  let rows ← each (childRow w.folders) f.children
  onDisk (writeTable std (makeNid kNidTypeHierarchyTable (nidIndex f.nid)) f.nid hierarchyColumns
    rows)
  -- its blocks were written as messages arrived
  let node ← onContents i (StreamingTable.finish std)
  onDisk (addNode (makeNid kNidTypeContentsTable (nidIndex f.nid)) node.data node.sub f.nid)
  onDisk (writeTable std (makeNid kNidTypeAssocContentsTable (nidIndex f.nid)) f.nid
    associatedColumns [])

def writeFolders : Writing Unit := do
  let w ← get
  discard (each (fun fi : Folder × Nat => writeFolder std fi.1 fi.2) w.folders.folders.zipIdx)

def finish : Writing Unit := do
  let w ← get
  if w.finished then return
  set { w with finished := true }
  writeFolders std
  let w ← get
  onDisk (writeReservedNodes std w.ipmSubtree)
  onDisk (writeMessageStore std w)
  -- last, so that every name is in
  onDisk (writeNameIdMap std w.names)
  onDisk (Pst.finish std)

/-! ## Runs -/

/-- What a caller may do before it finishes. -/
inductive PstCall where
  | createFolder (parent : Nat) (name : Bytes)
  | addMessage (folderId : Nat) (m : Message)

def PstCall.run : PstCall → Writing Unit
  | .createFolder parent name => discard (PstWriter.createFolder parent name)
  | .addMessage folderId m => PstWriter.addMessage std folderId m

end

end PstWriter

end Pst
end Imap2Pst
