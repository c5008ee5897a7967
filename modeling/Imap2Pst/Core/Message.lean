import Imap2Pst.Std.Bytes

/-!
# Core.Message

The normalized message representation every module speaks, translated from `core/message.h`.
The IMAP module produces `RawMessage`, the MIME module turns it into `Message`, the PST writer
consumes `Message`.
-/

namespace Imap2Pst

open CxxStd

/-! ## IMAP system flags -/

def kFlagNone : UInt32 := 0
def kFlagSeen : UInt32 := 1
def kFlagAnswered : UInt32 := 2
def kFlagFlagged : UInt32 := 4
def kFlagDeleted : UInt32 := 8
def kFlagDraft : UInt32 := 16
def kFlagRecent : UInt32 := 32

structure Mailbox where
  name : Bytes := []
  email : Bytes := []
  deriving DecidableEq, Repr

/-- An attachment whose embedded message, if any, is an `M`. -/
structure AttachmentOf (M : Type) where
  filename : Bytes := []
  contentType : Bytes := []
  contentId : Bytes := []
  isInline : Bool := false
  data : Bytes := []
  embedded : Option M := none

structure RawHeader where
  name : Bytes
  value : Bytes
  deriving DecidableEq, Repr

structure Message where
  messageClass : Bytes := []
  sender : Mailbox := {}
  to_ : List Mailbox := []
  cc : List Mailbox := []
  bcc : List Mailbox := []
  replyTo : List Mailbox := []
  subject : Bytes := []
  messageId : Bytes := []
  inReplyTo : Bytes := []
  date : Int := 0
  bodyText : Bytes := []
  bodyHtml : Bytes := []
  attachments : List (AttachmentOf Message) := []
  headers : List RawHeader := []
  flags : UInt32 := kFlagNone
  keywords : List Bytes := []
  imapUid : UInt32 := 0
  deliveryTime : Int := 0
  size : UInt32 := 0

abbrev Attachment := AttachmentOf Message

def Message.seen (m : Message) : Bool := m.flags &&& kFlagSeen ≠ 0

/-- The header block, CRLF separated. -/
def Message.headerBlob (m : Message) : Bytes :=
  m.headers.flatMap fun h => h.name ++ str ": " ++ h.value ++ [13, 10]

/-- A message as it came off the wire, before MIME parsing. -/
structure RawMessage where
  uid : UInt32 := 0
  flags : UInt32 := kFlagNone
  keywords : List Bytes := []
  internalDate : Int := 0
  rfc822 : Bytes := []
  deriving DecidableEq, Repr

structure FolderInfo where
  fullName : Bytes := []
  rawName : Bytes := []
  delimiter : Byte := 47
  selectable : Bool := true
  deriving DecidableEq, Repr

namespace FolderInfo

/-- The loop of `path`: `cur` is the component being read. -/
def splitOn (delimiter : Byte) (cur : Bytes) : Bytes → List Bytes
  | [] => if cur = [] then [] else [cur]
  | c :: cs =>
    if c = delimiter then
      -- empty components are collapsed
      if cur = [] then splitOn delimiter [] cs else cur :: splitOn delimiter [] cs
    else splitOn delimiter (cur ++ [c]) cs

/-- `full_name` split on `delimiter`; delimiter `'\0'` means the server reported NIL. -/
def path (f : FolderInfo) : List Bytes :=
  if f.delimiter = 0 then if f.fullName = [] then [] else [f.fullName]
  else splitOn f.delimiter [] f.fullName

end FolderInfo

end Imap2Pst
