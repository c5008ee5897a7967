import Imap2Pst.Imap.Parse
import Imap2Pst.Std.Sort

/-!
# Imap.Client

`ImapClient` over an abstract transport, as in `imap_client.cpp`. The pipeline sees a client only
through `ClientOps`, so that its theorems also cover clients that answer anything at all.
-/

namespace Imap2Pst

open CxxStd

/-- `ImapTransport`: a request is answered with text or with an `ImapError`. -/
structure TransportOps (T : Type) where
  command : T → (mailbox commandLine : Bytes) → Except String Bytes × T
  fetchBody : T → (mailbox : Bytes) → UInt32 → Except String Bytes × T

/-- The public operations of `ImapClient`, over a client state `C`. -/
structure ClientOps (C : Type) where
  listFolders : C → Reply ClientExn (List FolderInfo) × C
  listMessages : C → (mailbox : Bytes) → Reply ClientExn (List MessageMeta) × C
  fetchMessages : C → (mailbox : Bytes) → List MessageMeta → Reply ClientExn (List RawMessage) × C
  fetchMessage : C → (mailbox : Bytes) → MessageMeta → Reply ClientExn RawMessage × C

namespace ImapClient

variable {T : Type}

/-- The metadata of `m` on a raw message whose source is `rfc822`. -/
def rawOf (m : MessageMeta) (rfc822 : Bytes) : RawMessage :=
  { uid := m.uid, flags := m.flags, keywords := m.keywords, internalDate := m.internalDate,
    rfc822 }

/-- A request whose answer `parse` reads. -/
def request {α : Type} (answer : Except String Bytes × T) (parse : Bytes → Reply ClientExn α) :
    Reply ClientExn α × T :=
  match answer with
  | (.error what, t) => (.throws (.imapError what), t)
  | (.ok response, t) => (parse response, t)

def listFoldersCommand : Bytes := str "LIST \"\" \"*\""

def listMessagesCommand : Bytes := str "UID FETCH 1:* (FLAGS INTERNALDATE RFC822.SIZE)"

def fetchBodiesCommand (uids : List UInt32) : Bytes :=
  str "UID FETCH " ++ Imap.uidSet uids ++ str " (UID BODY.PEEK[])"

def listFolders (tr : TransportOps T) (t : T) : Reply ClientExn (List FolderInfo) × T :=
  request (tr.command t [] listFoldersCommand) Imap.parseListResponse

def listMessages (tr : TransportOps T) (t : T) (mailbox : Bytes) :
    Reply ClientExn (List MessageMeta) × T :=
  request (tr.command t mailbox listMessagesCommand) Imap.parseFetchResponse

def fetchMessage (tr : TransportOps T) (t : T) (mailbox : Bytes) (info : MessageMeta) :
    Reply ClientExn RawMessage × T :=
  request (tr.fetchBody t mailbox info.uid) fun rfc822 => .ok (rawOf info rfc822)

/-- `std::map<uint32_t, std::string>` filled from the parsed bodies; a later one replaces an
earlier one with the same key. -/
def bodyMap (bodies : List FetchedBody) : UInt32 → Option Bytes :=
  bodies.foldl (fun map b => Function.update map b.uid (some b.rfc822)) fun _ => none

/-- Each body is moved out of the map by the first entry that asks for it, which leaves an empty
string behind. -/
def alignBodies : (UInt32 → Option Bytes) → List MessageMeta → List RawMessage
  | _, [] => []
  | map, m :: ms =>
    match map m.uid with
    | some rfc822 => rawOf m rfc822 :: alignBodies (Function.update map m.uid (some [])) ms
    | none => rawOf m [] :: alignBodies map ms

def sortedUids (srt : StdSort) (metas : List MessageMeta) : List UInt32 :=
  srt.sort (byKey UInt32.toNat) (metas.map (·.uid))

/-- Fetches the bodies for `metas` in one round trip; the result is aligned with `metas`. -/
def fetchMessages (srt : StdSort) (tr : TransportOps T) (t : T) (mailbox : Bytes)
    (metas : List MessageMeta) : Reply ClientExn (List RawMessage) × T :=
  if metas = [] then (.ok [], t)
  else
    request (tr.command t mailbox (fetchBodiesCommand (sortedUids srt metas))) fun response =>
      (Imap.parseFetchBodies response).map fun bodies => alignBodies (bodyMap bodies) metas

def ops (srt : StdSort) (tr : TransportOps T) : ClientOps T where
  listFolders := listFolders tr
  listMessages := listMessages tr
  fetchMessages := fetchMessages srt tr
  fetchMessage := fetchMessage tr

end ImapClient

end Imap2Pst
