import Imap2Pst.Pipeline.Run

/-!
# Pipeline.Scripted

Small services to run the pipeline on: a server that answers from a script, as the recorded
transports of the tests do, and a writer that keeps what it is given.
-/

namespace Imap2Pst
namespace Pipeline

open CxxStd

variable {C : Type}

/-- What a scripted server has left to say. -/
abbrev Script := List (Except String Bytes)

def Script.next : Script → Except String Bytes × Script
  | [] => (.error "connection closed", [])
  | answer :: rest => (answer, rest)

/-- A transport whose requests are answered from a script, one after the other. -/
def scripted : TransportOps Script where
  command script _ _ := script.next
  fetchBody script _ _ := script.next

/-- A server that answers every request on its own and no batch: `body` says which messages it
has. -/
def oneByOne (folders : List FolderInfo) (metas : Bytes → List MessageMeta)
    (body : Bytes → UInt32 → Option Bytes) : ClientOps Unit where
  listFolders _ := (.ok folders, ())
  listMessages _ mailbox := (.ok (metas mailbox), ())
  fetchMessages _ _ _ := (.throws (.imapError "NO too many messages"), ())
  fetchMessage _ mailbox info :=
    match body mailbox info.uid with
    | some rfc822 => (.ok (ImapClient.rawOf info rfc822), ())
    | none => (.throws (.imapError "message has gone"), ())

/-- A transport over mailboxes, as the fixture of the tests: listings are given as text, single
fetches come from `mail`, and every batched fetch gets the answer `batch`. -/
def mailServer (folders : Except String Bytes) (listing : Bytes → Except String Bytes)
    (mail : Bytes → UInt32 → Option Bytes) (batch : Except String Bytes) : TransportOps Unit where
  command _ mailbox line :=
    (if line = ImapClient.listFoldersCommand then folders
      else if line = ImapClient.listMessagesCommand then listing mailbox
      else batch, ())
  fetchBody _ mailbox uid :=
    match mail mailbox uid with
    | some octets => (.ok octets, ())
    | none => (.error "no such message", ())

/-- What a shelf has been given: the names of its folders and its messages, in order. -/
structure Shelf where
  folders : List (FolderId × Bytes) := []
  messages : List (FolderId × Message) := []

/-- A writer that never fails. -/
def shelf : WriterOps Shelf where
  create _ := .ok {}
  ipmSubtree := 0
  createFolder s parent name :=
    (.ok (s.folders.length + 1), { s with folders := s.folders ++ [(parent, name)] })
  addMessage s folder msg := (.ok (), { s with messages := s.messages ++ [(folder, msg)] })
  finish s := (.ok (), s)

/-- A spool that holds nothing and takes nothing. -/
def noSpool : SpoolOps Unit where
  readFile _ _ := ([], ())
  writeFile _ _ _ := ()

/-- Services around a client; a message is its source. -/
def onto (client : ClientOps C) : Services C Unit Shelf where
  client := client
  spool := noSpool
  writer := shelf
  parse raw := .ok { bodyText := raw.rfc822, imapUid := raw.uid, flags := raw.flags }
  srt := .insertion

def desk : Services Script Unit Shelf := onto (ImapClient.ops .insertion scripted)

end Pipeline
end Imap2Pst
