import Imap2Pst.Mime.Headers
import Imap2Pst.Pst.Setters
import Imap2Pst.Pst.StoredNames
import Imap2Pst.Pst.TableNode

/-!
# Pst.MessageProperties

What `PstWriter` of `pst/pst_writer.cpp` says of a message: the properties of the message and of
its attachments, and the rows of its recipient table, its attachment table and the contents table
it is listed in.

* `messageProperties` — the properties of a message, with those named after its headers.
* `attachmentSetters` — the properties of an attachment, all but its content.
* `recipientRows`, `attachmentRows`, `contentsRow` — the rows.
-/

namespace Imap2Pst

open CxxStd

/-- The name, or the address where there is no name. -/
def Mailbox.display (m : Mailbox) : Bytes := if m.name = [] then m.email else m.name

namespace Message

/-- When the message was delivered, as far as is known. -/
def delivered (m : Message) : Int := if m.deliveryTime ≠ 0 then m.deliveryTime else m.date

def sent (m : Message) : Int := if m.date ≠ 0 then m.date else m.deliveryTime

end Message

namespace Pst

def joinMailboxes (v : List Mailbox) : Bytes :=
  v.foldl (fun out m => (if out = [] then out else out ++ str "; ") ++ m.display) []

/-- A character of plain text in RTF. -/
def rtfChar (c : Byte) : Bytes :=
  if c = 92 then [92, 92]
  else if c = 123 then [92, 123]
  else if c = 125 then [92, 125]
  else if c = 10 then str "\\par\n"
  else if c = 13 then []
  -- octets above ASCII are UTF-8 already, and the codepage says so
  else [c]

/-- Plain text as an RTF document in the uncompressed envelope. -/
def rtfFromPlainText (text : Bytes) : Bytes :=
  let rtf := str "\x7b\\rtf1\\ansi\\ansicpg65001\\fromtext\\deff0" ++
    str "\x7b\\fonttbl\x7b\\f0\\fswiss Arial;\x7d\x7d\n\\pard\\plain\\f0\\fs20 " ++
    text.flatMap rtfChar ++ [125]
  le 4 (rtf.length + 12) ++ le 4 rtf.length ++ le 4 0x414C454D ++ le 4 0 ++ rtf

/-! ## Identifiers -/

/-- `store_guid_`. -/
abbrev RecordKey := Vector Byte 16

def entryId (key : RecordKey) (nid : Nat) : Bytes := le 4 0 ++ key.toList ++ le 4 nid

/-- The record key, its last four octets mixed with the NID. -/
def searchKey (key : RecordKey) (nid : Nat) : Bytes :=
  key.toList.take 12 ++ List.zipWith (· ^^^ ·) (key.toList.drop 12) (le 4 nid)

def kOneOffUid : Bytes :=
  [0x81, 0x2B, 0x1F, 0xA4, 0xBE, 0xA3, 0x10, 0x19, 0x9D, 0x6E, 0x00, 0xDD, 0x01, 0x0F, 0x54, 0x02]

/-- The entry id of a recipient who is not in an address book. -/
def oneOffEntryId (displayName email : Bytes) : Bytes :=
  let string (s : Bytes) := utf8ToUtf16le s ++ le 2 0
  -- the flags, the provider, the version and `MAPI_UNICODE`
  le 4 0 ++ kOneOffUid ++ le 2 0 ++ le 2 0x1000 ++
    (string displayName ++ string (str "SMTP") ++ string email)

/-! ## The properties of a message -/

def messageClass (m : Message) : Bytes :=
  if m.messageClass = [] then str "IPM.Note" else m.messageClass

def messageFlags (m : Message) : UInt32 :=
  MSGFLAG_UNMODIFIED.toUInt32 ||| (if m.seen then MSGFLAG_READ.toUInt32 else 0) |||
    (if m.attachments.isEmpty then 0 else MSGFLAG_HASATTACH.toUInt32) |||
    (if m.flags &&& kFlagDraft ≠ 0 then MSGFLAG_UNSENT.toUInt32 else 0)

def messageSize (m : Message) : UInt32 :=
  if m.size ≠ 0 then m.size else (m.bodyText.length + m.bodyHtml.length).toUInt32

def setTime (tag : Nat) (unixSeconds : Int) : Setter :=
  .time tag (unixToFiletime unixSeconds).toUInt64

/-- The class, the subject and the bodies. -/
def bodySetters (m : Message) : List Setter :=
  [.string PR_MESSAGE_CLASS (messageClass m), .string PR_SUBJECT m.subject,
    .string PR_CONVERSATION_TOPIC m.subject] ++
  (if m.bodyText = [] then [] else [.string PR_BODY m.bodyText]) ++
  (if m.bodyHtml ≠ [] then [.binary PR_HTML m.bodyHtml]
  else if m.bodyText ≠ [] then
    -- with no HTML there is nothing to make a rich body from
    [.binary PR_RTF_COMPRESSED (rtfFromPlainText m.bodyText), .bool PR_RTF_IN_SYNC true]
  else []) ++
  [.int32 PR_INTERNET_CPID CP_UTF8.toUInt32, .int32 PR_MESSAGE_CODEPAGE CP_UTF8.toUInt32]

/-- Who the message is from and to. -/
def addressSetters (m : Message) : List Setter :=
  (if m.sender.email ≠ [] ∨ m.sender.name ≠ [] then
    [.string PR_SENDER_NAME m.sender.display, .string PR_SENDER_EMAIL_ADDRESS m.sender.email,
      .string PR_SENDER_ADDRTYPE (str "SMTP"),
      .string PR_SENT_REPRESENTING_NAME m.sender.display]
  else []) ++
  [.string PR_DISPLAY_TO (joinMailboxes m.to_)] ++
  (if m.cc = [] then [] else [.string PR_DISPLAY_CC (joinMailboxes m.cc)]) ++
  (if m.bcc = [] then [] else [.string PR_DISPLAY_BCC (joinMailboxes m.bcc)])

/-- The times, with what stands in for the delivery of a message without any. -/
def timeSetters (created modified : Int) (m : Message) : List Setter :=
  [setTime PR_MESSAGE_DELIVERY_TIME m.delivered, setTime PR_CLIENT_SUBMIT_TIME m.sent,
    setTime PR_CREATION_TIME created, setTime PR_LAST_MODIFICATION_TIME modified]

def flagSetters (m : Message) : List Setter :=
  [.int32 PR_MESSAGE_FLAGS (messageFlags m),
    .int32 PR_FLAG_STATUS (if m.flags &&& kFlagFlagged ≠ 0 then FLAG_STATUS_FLAGGED.toUInt32
      else FLAG_STATUS_NONE.toUInt32),
    .bool PR_HASATTACH (!m.attachments.isEmpty)] ++
  (if m.flags &&& kFlagAnswered ≠ 0 then
    [.int32 PR_LAST_VERB_EXECUTED VERB_REPLYTOSENDER.toUInt32,
      setTime PR_LAST_VERB_EXECUTION_TIME m.sent,
      .int32 PR_ICON_INDEX ICON_MAIL_REPLIED.toUInt32]
  else [])

/-- Keywords become categories; id 0 is no id. -/
def keywordSetters (id : Nat) (m : Message) : List Setter :=
  if m.keywords ≠ [] ∧ id ≠ 0 then [.stringArray (makeTag id kPtMvUnicode) m.keywords] else []

/-- The size and the identifiers. An embedded message has no entry id. -/
def idSetters (key : RecordKey) (nid : Nat) (embedded : Bool) (m : Message) : List Setter :=
  [.int32 PR_MESSAGE_SIZE (messageSize m)] ++
  (if m.messageId = [] then [] else [.string PR_INTERNET_MESSAGE_ID m.messageId]) ++
  (if m.inReplyTo = [] then [] else [.string PR_IN_REPLY_TO_ID m.inReplyTo]) ++
  (if embedded then []
  else [.binary PR_ENTRYID (entryId key nid), .binary PR_SEARCH_KEY (searchKey key nid)])

/-- Every property but those named after headers. -/
def messageSetters (key : RecordKey) (nid : Nat) (embedded : Bool) (created modified : Int)
    (keywordsId : Nat) (m : Message) : List Setter :=
  bodySetters m ++ addressSetters m ++ timeSetters created modified m ++ flagSetters m ++
    keywordSetters keywordsId m ++ idSetters key nid embedded m

/-- The id of the property for keywords, which is asked for when there are any. -/
def keywordsId (m : Message) (names : NameIdMap) : Nat × NameIdMap :=
  if m.keywords = [] then (0, names) else names.idForString kPsPublicStrings keywordsName

def messageProperties (key : RecordKey) (nid : Nat) (embedded : Bool) (created modified : Int)
    (m : Message) (names : NameIdMap) : PropertyContext × NameIdMap :=
  let (id, names) := keywordsId m names
  applyHeaderProperties (built (messageSetters key nid embedded created modified id m)) m names

/-! ## Recipients -/

def recipientColumns : List Nat :=
  [PR_RECIPIENT_TYPE, PR_RESPONSIBILITY, PR_RECORD_KEY, PR_OBJECT_TYPE, PR_ENTRYID,
    PR_DISPLAY_NAME, PR_ADDRTYPE, PR_EMAIL_ADDRESS, PR_SEARCH_KEY, PR_DISPLAY_TYPE,
    PR_7BIT_DISPLAY_NAME, PR_SEND_RICH_INFO]

/-- The lambda `add`. -/
def recipientRow (type : Nat) (m : Mailbox) (rowId : Nat) : RowCalls where
  rowId
  sets :=
    [(PR_RECIPIENT_TYPE, .int32 type), (PR_DISPLAY_NAME, .string m.display),
      (PR_7BIT_DISPLAY_NAME, .string m.display), (PR_EMAIL_ADDRESS, .string m.email),
      (PR_ADDRTYPE, .string (str "SMTP")), (PR_OBJECT_TYPE, .int32 MAPI_MAILUSER),
      (PR_DISPLAY_TYPE, .int32 DT_MAILUSER), (PR_RESPONSIBILITY, .bool false),
      (PR_SEND_RICH_INFO, .bool false), (PR_ENTRYID, .binary (oneOffEntryId m.display m.email)),
      (PR_RECORD_KEY, .binary (oneOffEntryId m.display m.email)),
      (PR_SEARCH_KEY, .binary ((str "SMTP:" ++ m.email).map Mime.toUpper ++ [0]))]

/-- Every recipient with its type, in order. -/
def recipients (m : Message) : List (Nat × Mailbox) :=
  m.to_.map (MAPI_TO, ·) ++ m.cc.map (MAPI_CC, ·) ++ m.bcc.map (MAPI_BCC, ·)

/-- Row ids start at one, and have 32 bits. -/
def recipientRows (m : Message) : List RowCalls :=
  (recipients m).zipIdx.map fun ((type, mailbox), i) =>
    recipientRow type mailbox ((1 + i) % 2 ^ 32)

/-! ## Attachments -/

def attachmentColumns : List Nat :=
  [PR_DISPLAY_NAME, PR_ATTACH_LONG_FILENAME, PR_ATTACH_FILENAME, PR_ATTACH_METHOD, PR_ATTACH_SIZE,
    PR_ATTACH_MIME_TAG, PR_ATTACH_NUM, PR_ATTACH_RENDERING_POS]

def attachmentNid (i : Nat) : Nat := makeNid kNidTypeAttachment (i + 1)

def attachmentName (i : Nat) (a : Attachment) : Bytes :=
  if a.filename = [] then str "attachment" ++ decimal (i + 1) else a.filename

def attachmentMethod (a : Attachment) : Nat :=
  if a.embedded.isSome then ATTACH_EMBEDDED_MSG else ATTACH_BY_VALUE

/-- The content, three names, the type and the content id, and five values of four octets. -/
def attachSize (i : Nat) (a : Attachment) : Nat :=
  (a.data.length + (attachmentName i a).length * 2 * 3 + a.contentType.length * 2 +
    a.contentId.length * 2 + 5 * 4) % 2 ^ 32

/-- Every property of an attachment but its content. -/
def attachmentSetters (i : Nat) (a : Attachment) : List Setter :=
  [.int32 PR_ATTACH_METHOD (attachmentMethod a).toUInt32, .int32 PR_ATTACH_NUM i.toUInt32,
    .int32 PR_ATTACH_RENDERING_POS 0xFFFFFFFF, .int32 PR_OBJECT_TYPE MAPI_ATTACH.toUInt32,
    .string PR_DISPLAY_NAME (attachmentName i a), .string PR_ATTACH_FILENAME (attachmentName i a),
    .string PR_ATTACH_LONG_FILENAME (attachmentName i a)] ++
  (if a.contentType = [] then [] else [.string PR_ATTACH_MIME_TAG a.contentType]) ++
  (if a.contentId = [] then [] else [.string PR_ATTACH_CONTENT_ID a.contentId]) ++
  [.int32 PR_ATTACH_SIZE (attachSize i a).toUInt32]

def attachmentRow (i : Nat) (a : Attachment) : RowCalls where
  rowId := attachmentNid i
  sets :=
    [(PR_DISPLAY_NAME, .string (attachmentName i a)),
      (PR_ATTACH_LONG_FILENAME, .string (attachmentName i a)),
      (PR_ATTACH_FILENAME, .string (attachmentName i a)),
      (PR_ATTACH_METHOD, .int32 (attachmentMethod a)), (PR_ATTACH_SIZE, .int32 (attachSize i a)),
      (PR_ATTACH_MIME_TAG, .string a.contentType), (PR_ATTACH_NUM, .int32 (i % 2 ^ 32)),
      (PR_ATTACH_RENDERING_POS, .int32 0xFFFFFFFF)]

def attachmentRows (m : Message) : List RowCalls :=
  m.attachments.zipIdx.map fun (a, i) => attachmentRow i a

/-! ## The contents table -/

def contentsColumns : List Nat :=
  [PR_SUBJECT, PR_SENDER_NAME, PR_DISPLAY_TO, PR_MESSAGE_CLASS, PR_MESSAGE_DELIVERY_TIME,
    PR_MESSAGE_FLAGS, PR_MESSAGE_SIZE, PR_HASATTACH, PR_IMPORTANCE, PR_SENSITIVITY,
    PR_CLIENT_SUBMIT_TIME, PR_SENT_REPRESENTING_NAME, PR_MESSAGE_TO_ME, PR_MESSAGE_CC_ME,
    PR_CONVERSATION_TOPIC, PR_CONVERSATION_INDEX, PR_DISPLAY_CC, PR_MESSAGE_STATUS,
    PR_REPL_ITEMID, PR_REPL_CHANGENUM, PR_REPL_VERSION_HISTORY, PR_REPL_FLAGS,
    PR_REPL_COPIEDFROM_VERSION, PR_REPL_COPIEDFROM_ITEMID, PR_ITEM_TEMPORARY_FLAGS,
    PR_LAST_MODIFICATION_TIME, PR_CONVERSATION_ID, PR_SECURE_SUBMIT_FLAGS]

/-- The row of a message in the contents table of its folder. -/
def contentsRow (nid : Nat) (m : Message) : RowCalls where
  rowId := nid
  sets :=
    [(PR_SUBJECT, .string m.subject), (PR_SENDER_NAME, .string m.sender.display),
      (PR_DISPLAY_TO, .string (joinMailboxes m.to_)), (PR_MESSAGE_CLASS, .string (messageClass m)),
      (PR_MESSAGE_DELIVERY_TIME, .int64 (unixToFiletime m.delivered)),
      (PR_MESSAGE_FLAGS, .int32 (messageFlags m).toNat),
      (PR_MESSAGE_SIZE, .int32 (messageSize m).toNat),
      (PR_HASATTACH, .bool (!m.attachments.isEmpty))]

end Pst
end Imap2Pst
