import Imap2Pst.Mime.Entity
import Imap2Pst.Std.Time

/-!
# Mime.Builder

From the entity tree to the normalized message, translated from `mime/message_builder.cpp` and
`mime/mime_parser.cpp`.

* `collect` — the walk over the tree that fills in the two bodies and the attachments.
* `buildMessage` — the message of a tree; a `message/rfc822` part is built in turn, as long as
  nesting levels are left.
* `parse` — the public entry point.
-/

namespace Imap2Pst
namespace Mime

open CxxStd

/-! ## Dates -/

def kMonths : List Bytes :=
  ["jan", "feb", "mar", "apr", "may", "jun", "jul", "aug", "sep", "oct", "nov", "dec"].map str

/-- `" %d %15s %d %d:%d:%d %15s"`. -/
def dateFormat : List Directive :=
  [.space, .int none, .space, .word 15, .space, .int none, .space, .int none, .lit (chr ':'),
    .int none, .lit (chr ':'), .int none, .space, .word 15]

/-- Seconds since the epoch of a `Date:` header, 0 when it cannot be read. -/
def parseDate (value : Bytes) : Int :=
  let s := match find value (chr ',') 0 with
    | some comma => if comma < 5 then value.drop (comma + 1) else value
    | none => value
  match sscanf dateFormat (cstr s) with
  | day :: monthName :: year :: hour :: minute :: second :: zone =>
    match kMonths.findIdx? (· == lower (monthName.toWord.take 3)) with
    | none => 0
    | some month =>
      -- two-digit years, RFC 822
      let year := year.toInt
      let year := if year < 100 then year + (if year < 70 then 2000 else 1900) else year
      let tmYear := wrapInt (year - 1900)
      let utc := timegm tmYear month day.toInt hour.toInt minute.toInt second.toInt
      if utc = -1 then 0
      else match zone with
        | [] => utc
        | zone :: _ =>
          let zone := zone.toWord
          let digits := atoi zone.tail
          let offset := wrapInt (digits.tdiv 100 * 3600 + digits.tmod 100 * 60)
          if zone.head? = some (chr '+') then utc - offset
          else if zone.head? = some (chr '-') then utc + offset
          else utc
  | _ => 0

/-! ## Message class and recipients -/

section

variable (icu : Converter)

def messageClassFor (root : Entity) : Bytes :=
  let contentType := headerValue root.headers (str "Content-Type")
  let media := lower (fieldToken contentType)
  if media = str "multipart/report" then
    let report := lower (fieldParameter icu contentType (str "report-type"))
    if report = str "delivery-status" then str "REPORT.IPM.Note.NDR"
    else if report = str "disposition-notification" then str "REPORT.IPM.Note.IPNRN"
    else []
  else if media = str "multipart/signed" then str "IPM.Note.SMIME.MultipartSigned"
  else if media = str "application/pkcs7-mime" ∨ media = str "application/x-pkcs7-mime" then
    str "IPM.Note.SMIME"
  else []

/-- The mailboxes of the first delivery header that names somebody. -/
def deliveredTo (root : Entity) : List Bytes → List Mailbox
  | [] => []
  | name :: names =>
    let value := headerValue root.headers name
    let found := if chr '@' ∈ value then parseAddressList icu value else []
    if found = [] then deliveredTo root names else found

/-- Mail delivered by BCC names nobody in its visible headers; the delivery headers still do. -/
def recoverHiddenRecipients (root : Entity) (out : Message) : Message :=
  if out.to_ ≠ [] ∨ out.cc ≠ [] ∨ out.bcc ≠ [] then out
  else
    let names := [str "Delivered-To", str "X-Original-To", str "Envelope-To"]
    { out with bcc := deliveredTo icu root names }

/-! ## Bodies and attachments -/

def isAttachment (e : Entity) : Bool :=
  e.disposition = str "attachment" || e.filename ≠ [] ||
    (e.type_ ≠ str "text" && e.type_ ≠ str "multipart" && !e.isMessage)

/-- The attachment of a part, `count` attachments into the message. `build` makes the message of
an embedded entity; it is `none` at the nesting limit. -/
def attachmentOf (build : Option (Entity → Message)) (e : Entity) (count : Nat) : Attachment :=
  let isInline := e.disposition = str "inline" || (e.contentId ≠ [] && e.disposition = [])
  let a : Attachment :=
    { contentType := e.mediaType, contentId := e.contentId, isInline, filename := e.filename }
  let blob : Attachment :=
    { a with
      data := e.body
      filename :=
        if e.filename ≠ [] then e.filename
        else if e.contentId = [] then str "attachment" ++ decimal (count + 1)
        else e.contentId }
  if e.isMessage then
    match e.parts, build with
    | first :: _, some build =>
      -- stored as a message; the source is kept too, so nothing is lost
      let inner := build first
      { a with
        embedded := some inner
        data := e.rawBody
        filename :=
          if e.filename ≠ [] then e.filename
          else if inner.subject = [] then str "Forwarded message"
          else inner.subject }
    | _, _ => blob
  else blob

def addAttachment (build : Option (Entity → Message)) (e : Entity) (out : Message) : Message :=
  { out with attachments := out.attachments ++ [attachmentOf build e out.attachments.length] }

/-- One of the two bodies when a text part for it arrives. -/
def fillBody (inAlternative : Bool) (body text : Bytes) : Bytes :=
  if body = [] ∨ inAlternative then text else body

/-- A part that holds no parts of its own. -/
def collectLeaf (build : Option (Entity → Message)) (inAlternative : Bool) (e : Entity)
    (out : Message) : Message :=
  if e.isMessage then addAttachment build e out
  else if isAttachment e then addAttachment build e out
  else if e.type_ = str "text" then
    let text := toUtf8 icu e.body e.charset
    if e.subtype = str "html" then
      { out with bodyHtml := fillBody inAlternative out.bodyHtml text }
    else { out with bodyText := fillBody inAlternative out.bodyText text }
  -- not text, not a recognised container: kept rather than dropped
  else addAttachment build e out

mutual

/-- Walks a part. `inAlternative` marks a part directly under multipart/alternative, where the
last readable representation wins. -/
def collect (build : Option (Entity → Message)) (inAlternative : Bool) (e : Entity)
    (out : Message) : Message :=
  if e.isMultipart then collectParts build (e.subtype = str "alternative") e.parts out
  else collectLeaf icu build inAlternative e out
termination_by 2 * sizeOf e + 1
decreasing_by cases e; simp only [Entity.mk.sizeOf_spec]; omega

/-- The parts of a multipart, in order. -/
def collectParts (build : Option (Entity → Message)) (inAlternative : Bool)
    (parts : List Entity) (out : Message) : Message :=
  match parts with
  | [] => out
  | part :: parts =>
    collectParts build inAlternative parts (collect build inAlternative part out)
termination_by 2 * sizeOf parts

end

/-- What `buildMessage` reads off the headers, before it walks the tree. -/
def messageHead (root : Entity) : Message :=
  let value name := headerValue root.headers (str name)
  { headers := root.headers.map fun h => ⟨h.name, headerText icu h.value⟩
    subject := headerText icu (value "Subject")
    messageId := stripAngles (value "Message-ID")
    inReplyTo := stripAngles (value "In-Reply-To")
    date := parseDate (value "Date")
    sender := (parseAddressList icu (value "From")).headD {}
    to_ := parseAddressList icu (value "To")
    cc := parseAddressList icu (value "Cc")
    bcc := parseAddressList icu (value "Bcc")
    replyTo := parseAddressList icu (value "Reply-To")
    messageClass := messageClassFor icu root }

/-- `buildMessage` with `levels` nesting levels left. -/
def buildMessageAt : Nat → Entity → Message
  | 0, root => collect icu none false root (recoverHiddenRecipients icu root (messageHead icu root))
  | levels + 1, root =>
    collect icu (some (buildMessageAt levels)) false root
      (recoverHiddenRecipients icu root (messageHead icu root))

def buildMessage (root : Entity) (depth : Nat) : Message :=
  buildMessageAt icu (kMaxNestingDepth - depth) root

/-- Parsing is total: every input yields a message. -/
def parseSource (raw : Bytes) : Message :=
  { buildMessage icu (parseEntity icu raw 0) 0 with size := raw.length.toUInt32 }

/-- `mime::parse` of a message as it came off the wire. -/
def parse (raw : RawMessage) : Message :=
  let out := parseSource icu raw.rfc822
  { out with
    flags := raw.flags
    keywords := raw.keywords
    imapUid := raw.uid
    deliveryTime := raw.internalDate
    date := if out.date = 0 then raw.internalDate else out.date }

end

end Mime
end Imap2Pst
