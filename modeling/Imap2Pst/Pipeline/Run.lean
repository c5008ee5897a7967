import Imap2Pst.Imap.Client

/-!
# Pipeline.Run

`run` of `pipeline.cpp`: folders are listed, filtered and sorted, and every message of a folder
goes through the spool, a batched fetch, a fetch on its own and the writer.

The client, the spool directory, the MIME parser and the PST writer are parameters (`Services`),
so a theorem about `run` holds for every behaviour they can have. A run may return its
statistics, throw, or never come back (`Ending`). Besides the variables of the source, the state
carries a history: the listings that succeeded and the messages handed to the parser and the
writer.
-/

namespace Imap2Pst

open CxxStd

abbrev FolderId := Nat

namespace Pipeline

/-- `PipelineOptions`, without the fields that only steer progress reports. -/
structure Options where
  outputPath : Bytes := []
  folders : List Bytes := []
  batchSize : Nat := 50
  batchBytes : Nat := 32 * 1024 * 1024
  spoolDir : Bytes := []

structure FailedMessage where
  folder : Bytes
  uid : UInt32 := 0
  reason : String
  deriving DecidableEq, Repr

structure Stats where
  folders : Nat := 0
  messages : Nat := 0
  attachments : Nat := 0
  failedMessages : Nat := 0
  fetchedBytes : Nat := 0
  reusedMessages : Nat := 0
  failedUids : List FailedMessage := []
  deriving DecidableEq, Repr

/-- The spool directory: `readFile` gives the empty string for a file that is not there, and
nothing looks at the result of `writeFile`. -/
structure SpoolOps (F : Type) where
  readFile : F → (path : Bytes) → Bytes × F
  writeFile : F → (path data : Bytes) → F

/-- The public operations of `PstWriter`. -/
structure WriterOps (W : Type) where
  create : (path : Bytes) → Except String W
  ipmSubtree : FolderId
  createFolder : W → (parent : FolderId) → (name : Bytes) → Except String FolderId × W
  addMessage : W → FolderId → Message → Except String Unit × W
  finish : W → Except String Unit × W

structure Services (C F W : Type) where
  client : ClientOps C
  spool : SpoolOps F
  writer : WriterOps W
  /-- `mime::parse`, or the exception it throws. -/
  parse : RawMessage → Except String Message
  srt : StdSort

/-- History: one pass of the write loop that reached `mime::parse`. -/
structure Attempt where
  folder : FolderInfo
  id : FolderId
  info : MessageMeta
  raw : RawMessage
  stored : Bool
  deriving DecidableEq, Repr

structure RunState (C F W : Type) where
  client : C
  spool : F
  writer : W
  stats : Stats := {}
  byPath : List (Bytes × FolderId) := []
  /-- History: what `listMessages` returned, folder by folder. -/
  listings : List (FolderInfo × List MessageMeta) := []
  /-- History: the folders whose listing the server refused. -/
  refused : List FolderInfo := []
  attempts : List Attempt := []

inductive Ending where
  | returns
  | throws (what : String)
  | hangs
  deriving DecidableEq, Repr

/-- Goes on with `k` unless the run has ended. -/
def andThen {S : Type} (r : Ending × S) (k : S → Ending × S) : Ending × S :=
  match r with
  | (.returns, s) => k s
  | (e, s) => (e, s)

variable {C F W : Type}

/-! ## Folders -/

def fnvOffset : UInt64 := 1469598103934665603
def fnvPrime : UInt64 := 1099511628211

def hashName (folder : Bytes) : UInt64 :=
  folder.foldl (fun h c => (h ^^^ c.toUInt64) * fnvPrime) fnvOffset

def hexDigit (d : Nat) : Byte := if d < 10 then (48 + d).toUInt8 else (87 + d).toUInt8

/-- `"%016llx-%010u.eml"` -/
def spoolName (folder : Bytes) (uid : UInt32) : Bytes :=
  (fixedDigits 16 16 (hashName folder).toNat).map hexDigit ++ [45] ++
    (fixedDigits 10 10 uid.toNat).map hexDigit ++ str ".eml"

def spoolPath (dir folder : Bytes) (uid : UInt32) : Bytes :=
  (if dir.getLast? = some 47 then dir else dir ++ [47]) ++ spoolName folder uid

/-- The `--folder` filter takes a folder by its display name or by its raw one. -/
def selected (opts : Options) (folders : List FolderInfo) : List FolderInfo :=
  if opts.folders = [] then folders
  else folders.filter fun f => f.fullName ∈ opts.folders ∨ f.rawName ∈ opts.folders

/-- Shortest paths first, then by name. -/
def folderLt (a b : FolderInfo) : Bool :=
  if a.path.length ≠ b.path.length then a.path.length < b.path.length
  else a.fullName < b.fullName

/-- `folder_for`: walks `path` below `parent`, creating what `by_path` does not know yet. -/
def folderFor (wr : WriterOps W) (pre : Bytes) (parent : FolderId) :
    List Bytes → W × List (Bytes × FolderId) → Except String FolderId × W × List (Bytes × FolderId)
  | [], s => (.ok parent, s)
  | part :: rest, (w, byPath) =>
    let pre := (if pre = [] then pre else pre ++ [0x1f]) ++ part
    match byPath.lookup pre with
    | some id => folderFor wr pre id rest (w, byPath)
    | none =>
      match wr.createFolder w parent part with
      | (.error what, w) => (.error what, w, byPath)
      | (.ok id, w) => folderFor wr pre id rest (w, (pre, id) :: byPath)

/-! ## One batch -/

/-- Takes a batch off the listing: at most `batch_size` messages, and none but the first that
would take the bodies past `batch_bytes`. -/
def takeBatch (opts : Options) (batch : List MessageMeta) (bytes : Nat) :
    List MessageMeta → List MessageMeta
  | [] => batch
  | m :: rest =>
    if batch.length < opts.batchSize then
      if batch ≠ [] ∧ opts.batchBytes < bytes + m.size.toNat then batch
      else takeBatch opts (batch ++ [m]) (bytes + m.size.toNat) rest
    else batch

/-- The vectors of the batch loop. -/
structure Batch where
  raws : List RawMessage
  accounted : List Bool
  wanted : List MessageMeta := []
  wantedAt : List Nat := []

/-- The spool loop from position `i` on: what is spooled is served from disk, the rest goes
into `wanted`. -/
def spoolPass (sv : Services C F W) (opts : Options) (folder : FolderInfo) :
    Nat → List MessageMeta → Batch × RunState C F W → Batch × RunState C F W
  | _, [], s => s
  | i, m :: rest, (b, st) =>
    let want := { b with wanted := b.wanted ++ [m], wantedAt := b.wantedAt ++ [i] }
    if opts.spoolDir = [] then spoolPass sv opts folder (i + 1) rest (want, st)
    else
      let (cached, spool) := sv.spool.readFile st.spool (spoolPath opts.spoolDir folder.fullName m.uid)
      let st := { st with spool }
      if cached = [] then spoolPass sv opts folder (i + 1) rest (want, st)
      else
        let b := { b with raws := b.raws.set i (ImapClient.rawOf m cached) }
        let st := { st with stats.reusedMessages := st.stats.reusedMessages + 1 }
        spoolPass sv opts folder (i + 1) rest (b, st)

def RunState.fail (st : RunState C F W) (folder : FolderInfo) (info : MessageMeta)
    (reason : String) : RunState C F W :=
  { st with
    stats.failedMessages := st.stats.failedMessages + 1
    stats.failedUids := st.stats.failedUids ++ [⟨folder.fullName, info.uid, reason⟩] }

/-- Counts a fetched message and spools its source. -/
def RunState.keep (sv : Services C F W) (opts : Options) (folder : FolderInfo) (info : MessageMeta)
    (raw : RawMessage) (st : RunState C F W) : RunState C F W :=
  { st with
    stats.fetchedBytes := st.stats.fetchedBytes + raw.rfc822.length
    spool :=
      if opts.spoolDir ≠ [] ∧ raw.rfc822 ≠ [] then
        sv.spool.writeFile st.spool (spoolPath opts.spoolDir folder.fullName info.uid) raw.rfc822
      else st.spool }

/-- The fetch loop from position `i` of `wanted` on; `got` is what the batched fetch returned. -/
def fetchPass (sv : Services C F W) (opts : Options) (folder : FolderInfo) (got : List RawMessage)
    (size : Nat) : Nat → List (MessageMeta × Nat) → Batch × RunState C F W →
      Ending × Batch × RunState C F W
  | _, [], s => (.returns, s)
  | i, (info, pos) :: rest, (b, st) =>
    let body := got.getD i {}
    if got.length = size ∧ body.rfc822 ≠ [] then
      fetchPass sv opts folder got size (i + 1) rest
        ({ b with raws := b.raws.set pos body }, st.keep sv opts folder info body)
    else
      match sv.client.fetchMessage st.client folder.rawName info with
      | (.ok raw, client) =>
        fetchPass sv opts folder got size (i + 1) rest
          ({ b with raws := b.raws.set pos raw }, { st with client }.keep sv opts folder info raw)
      | (.throws (.imapError what), client) =>
        fetchPass sv opts folder got size (i + 1) rest
          ({ b with accounted := b.accounted.set pos true },
            { st with client }.fail folder info what)
      | (.throws e, client) => (.throws e.what, b, { st with client })
      | (.hangs, client) => (.hangs, b, { st with client })

/-- The batched fetch and the loop over what it was asked for. A batch that fails counts as one
that came back empty. -/
def fetchWanted (sv : Services C F W) (opts : Options) (folder : FolderInfo)
    (s : Batch × RunState C F W) : Ending × Batch × RunState C F W :=
  let (b, st) := s
  let pass got st :=
    fetchPass sv opts folder got b.wanted.length 0 (b.wanted.zip b.wantedAt) (b, st)
  if b.wanted = [] then (.returns, b, st)
  else
    match sv.client.fetchMessages st.client folder.rawName b.wanted with
    | (.ok got, client) => pass got { st with client }
    | (.throws (.imapError _), client) =>
      pass (List.replicate b.wanted.length {}) { st with client }
    | (.throws e, client) => (.throws e.what, b, { st with client })
    | (.hangs, client) => (.hangs, b, { st with client })

def emptyBody : String := "server returned an empty body"

/-- The size the server listed, when it listed one, overrides that of the source. -/
def withListedSize (msg : Message) (info : MessageMeta) : Message :=
  if info.size ≠ 0 then { msg with size := info.size } else msg

/-- Parses one message and adds it to the PST. -/
def handOver (sv : Services C F W) (folder : FolderInfo) (id : FolderId) (info : MessageMeta)
    (raw : RawMessage) (st : RunState C F W) : RunState C F W :=
  let attempt stored := st.attempts ++ [{ folder, id, info, raw, stored }]
  match sv.parse raw with
  | .error what => { st with attempts := attempt false }.fail folder info what
  | .ok msg =>
    match sv.writer.addMessage st.writer id (withListedSize msg info) with
    | (.error what, writer) => { st with writer, attempts := attempt false }.fail folder info what
    | (.ok (), writer) =>
      { st with
        writer
        attempts := attempt true
        stats.attachments := st.stats.attachments + msg.attachments.length
        stats.messages := st.stats.messages + 1 }

/-- The write loop, over the entries of `batch`, `raws` and `accounted` side by side. -/
def writePass (sv : Services C F W) (folder : FolderInfo) (id : FolderId) :
    List (MessageMeta × RawMessage × Bool) → RunState C F W → RunState C F W
  | [], st => st
  | (info, raw, accounted) :: rest, st =>
    if raw.rfc822 = [] then
      writePass sv folder id rest (if accounted then st else st.fail folder info emptyBody)
    else writePass sv folder id rest (handOver sv folder id info raw st)

def runBatch (sv : Services C F W) (opts : Options) (folder : FolderInfo) (id : FolderId)
    (batch : List MessageMeta) (st : RunState C F W) : Ending × RunState C F W :=
  let b : Batch :=
    { raws := List.replicate batch.length {}, accounted := List.replicate batch.length false }
  match fetchWanted sv opts folder (spoolPass sv opts folder 0 batch (b, st)) with
  | (.returns, b, st) => (.returns, writePass sv folder id (batch.zip (b.raws.zip b.accounted)) st)
  | (e, _, st) => (e, st)

/-! ## The run -/

/-- The batch loop over the messages not taken yet. -/
def batchLoop (sv : Services C F W) (opts : Options) (folder : FolderInfo) (id : FolderId) :
    Nat → List MessageMeta → RunState C F W → Ending × RunState C F W
  | _, [], st => (.returns, st)
  | 0, _ :: _, st => (.hangs, st)
  | fuel + 1, m :: ms, st =>
    let batch := takeBatch opts [] 0 (m :: ms)
    andThen (runBatch sv opts folder id batch st)
      (batchLoop sv opts folder id fuel ((m :: ms).drop batch.length))

/-- The messages of a folder that has been created as `id`. -/
def runListing (sv : Services C F W) (opts : Options) (folder : FolderInfo) (id : FolderId)
    (st : RunState C F W) : Ending × RunState C F W :=
  match sv.client.listMessages st.client folder.rawName with
  | (.ok metas, client) =>
    batchLoop sv opts folder id metas.length metas
      { st with client, listings := st.listings ++ [(folder, metas)] }
  | (.throws (.imapError _), client) =>
    (.returns, { st with client, refused := st.refused ++ [folder] })
  | (.throws e, client) => (.throws e.what, { st with client })
  | (.hangs, client) => (.hangs, { st with client })

def runFolder (sv : Services C F W) (opts : Options) (folder : FolderInfo)
    (st : RunState C F W) : Ending × RunState C F W :=
  if folder.path = [] then (.returns, st)
  else
    match folderFor sv.writer [] sv.writer.ipmSubtree folder.path (st.writer, st.byPath) with
    | (.error what, writer, byPath) => (.throws what, { st with writer, byPath })
    | (.ok id, writer, byPath) =>
      let st := { st with writer, byPath, stats.folders := st.stats.folders + 1 }
      if folder.selectable then runListing sv opts folder id st else (.returns, st)

def folderLoop (sv : Services C F W) (opts : Options) :
    List FolderInfo → RunState C F W → Ending × RunState C F W
  | [], st => (.returns, st)
  | folder :: rest, st => andThen (runFolder sv opts folder st) (folderLoop sv opts rest)

def finishWriter (sv : Services C F W) (st : RunState C F W) : Ending × RunState C F W :=
  match sv.writer.finish st.writer with
  | (.error what, writer) => (.throws what, { st with writer })
  | (.ok (), writer) => (.returns, { st with writer })

/-- The run from the folder listing on, with the writer open. -/
def migrate (sv : Services C F W) (opts : Options) (listed : List FolderInfo)
    (st : RunState C F W) : Ending × RunState C F W :=
  andThen (folderLoop sv opts (sv.srt.sort folderLt (selected opts listed)) st) (finishWriter sv)

/-- `run`; the state is missing when the run ends before the writer is open. -/
def run (sv : Services C F W) (opts : Options) (client : C) (spool : F) :
    Ending × Option (RunState C F W) :=
  match sv.client.listFolders client with
  | (.throws e, _) => (.throws e.what, none)
  | (.hangs, _) => (.hangs, none)
  | (.ok listed, client) =>
    match sv.writer.create opts.outputPath with
    | .error what => (.throws what, none)
    | .ok writer =>
      let (ending, st) := migrate sv opts listed { client, spool, writer }
      (ending, some st)

/-- The exit status `main` derives from a run; none for a run that never comes back. -/
def exitStatus : Ending × Option (RunState C F W) → Option Nat
  | (.returns, some st) => some (if st.stats.failedMessages ≠ 0 then 1 else 0)
  | (.hangs, _) => none
  | _ => some 1

end Pipeline

end Imap2Pst
