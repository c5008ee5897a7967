import Imap2Pst.Mime.Utf8
import Imap2Pst.Mime.Walk

/-!
# Mime.Recovery

Which of the strings of a message are UTF-8. The subject, the header values, the names of the
mailboxes and the bodies go through `headerText` or `toUtf8` and always are. The rest is taken
over as received: header names, message ids, addresses, and of an attachment the content type, the
content id and a file name that is not in the extended form.

* `Utf8Message` — every string of a message, and of the messages it embeds, is UTF-8.
* `Received` — the octets of a tree that are taken over are UTF-8.
-/

namespace Imap2Pst
namespace Mime

open CxxStd

/-! ## Messages in UTF-8 -/

structure Utf8Mailbox (mb : Mailbox) : Prop where
  name : isValidUtf8 mb.name = true
  email : isValidUtf8 mb.email = true

/-- The strings of a message itself. -/
structure Utf8Fields (m : Message) : Prop where
  messageClass : isValidUtf8 m.messageClass = true
  subject : isValidUtf8 m.subject = true
  messageId : isValidUtf8 m.messageId = true
  inReplyTo : isValidUtf8 m.inReplyTo = true
  bodyText : isValidUtf8 m.bodyText = true
  bodyHtml : isValidUtf8 m.bodyHtml = true
  mailboxes : ∀ mb ∈ m.sender :: (m.to_ ++ m.cc ++ m.bcc ++ m.replyTo), Utf8Mailbox mb
  headers : ∀ h ∈ m.headers, isValidUtf8 h.name = true ∧ isValidUtf8 h.value = true
  keywords : ∀ k ∈ m.keywords, isValidUtf8 k = true
  attachments : ∀ a ∈ m.attachments, isValidUtf8 a.filename = true ∧
    isValidUtf8 a.contentType = true ∧ isValidUtf8 a.contentId = true

inductive Utf8Message : Message → Prop
  | intro {m : Message} (fields : Utf8Fields m)
      (inner : ∀ a ∈ m.attachments, ∀ n, a.embedded = some n → Utf8Message n) : Utf8Message m

/-! ## Field parameters -/

section

variable (icu : Converter)

/-- The value of a parameter as it was received, its pieces joined, and whether it is in the
extended form. -/
def parameterOctets (value name : Bytes) : Bytes × Bool :=
  let st := (splitOutsideQuotes value (chr ';')).tail.foldl (addPiece (lower name)) {}
  (st.simple ++ st.continuations.flatMap Prod.snd, st.extended)

/-- The loop of `decodeEncodedWords` with blanks in place of what a word decodes to. -/
def outsideWordsFrom (skip pending : Nat) (encoded : Bool) : Bytes → Bytes
  | [] => List.replicate pending (chr ' ')
  | c :: cs =>
    match skip with
    | skip + 1 => outsideWordsFrom skip pending encoded cs
    | 0 =>
      match (if isEncodedWordStart (c :: cs) then decodeOneWord icu (c :: cs) else none) with
      | some (decoded, consumed) =>
        (if encoded then [] else List.replicate pending (chr ' ')) ++
          List.replicate decoded.length (chr ' ') ++ outsideWordsFrom (consumed - 1) 0 true cs
      | none =>
        if isSpace c then outsideWordsFrom 0 (pending + 1) encoded cs
        else List.replicate pending (chr ' ') ++ c :: outsideWordsFrom 0 0 false cs

/-- A parameter is UTF-8 outside its encoded words, or in the extended form. -/
def parameterReceived (value name : Bytes) : Bool :=
  let (joined, extended) := parameterOctets value name
  extended || isValidUtf8 (outsideWordsFrom icu 0 0 false joined)

variable {icu} (hicu : ReturnsUtf8 icu)

theorem isValidUtf8_replicate_space (n : Nat) :
    isValidUtf8 (List.replicate n (chr ' ')) = true := by
  refine isValidUtf8_of_ascii fun c hc => ?_
  rw [(List.mem_replicate.1 hc).2]
  decide

/-- A character more or less does not matter to what stands around it. -/
theorem isValidUtf8_middle {a d b : Bytes} (hd : isValidUtf8 d = true) (hne : d ≠ []) :
    isValidUtf8 (a ++ d ++ b) = (isValidUtf8 a && isValidUtf8 b) := by
  have hstart : startsCharacter (d ++ b) = true := by
    obtain ⟨c, d, rfl⟩ := List.exists_cons_of_ne_nil hne
    have hc := startsCharacter_of_valid hd
    exact hc
  rw [List.append_assoc, isValidUtf8_append_start hstart, isValidUtf8_append_of_valid hd]

include hicu in
theorem isValidUtf8_outsideWordsFrom (s front : Bytes) (skip pending : Nat) (encoded : Bool) :
    isValidUtf8 (front ++ decodeWordsFrom icu skip pending encoded s) =
      isValidUtf8 (front ++ outsideWordsFrom icu skip pending encoded s) := by
  induction s generalizing front skip pending encoded with
  | nil => rfl
  | cons c cs ih =>
    unfold decodeWordsFrom outsideWordsFrom
    cases skip with
    | succ skip => exact ih front skip pending encoded
    | zero =>
      dsimp only
      cases hword : (if isEncodedWordStart (c :: cs) then decodeOneWord icu (c :: cs) else none) with
      | some word =>
        obtain ⟨decoded, consumed⟩ := word
        have hdecoded : isValidUtf8 decoded = true := by
          split at hword
          · exact isValidUtf8_decodeOneWord hicu hword
          · cases hword
        dsimp only
        simp only [← List.append_assoc]
        cases decoded with
        | nil =>
          rw [List.length_nil, List.replicate_zero, List.append_nil]
          exact ih _ _ _ _
        | cons d ds =>
          rw [isValidUtf8_middle hdecoded (List.cons_ne_nil d ds),
            isValidUtf8_middle (isValidUtf8_replicate_space _) (by simp)]
          congr 1
          exact ih [] _ _ _
      | none =>
        dsimp only
        split
        · exact ih front 0 (pending + 1) encoded
        · have hstep := ih (front ++ List.replicate pending (chr ' ') ++ [c]) 0 0 false
          simpa only [List.append_assoc, List.singleton_append] using hstep

include hicu in
theorem isValidUtf8_fieldParameter (value name : Bytes) :
    isValidUtf8 (fieldParameter icu value name) = parameterReceived icu value name := by
  unfold fieldParameter parameterReceived parameterOctets
  dsimp only
  generalize (splitOutsideQuotes value (chr ';')).tail.foldl (addPiece (lower name)) {} = st
  generalize st.simple ++ st.continuations.flatMap Prod.snd = joined
  generalize st.extended = extended
  by_cases hnil : joined = []
  · subst hnil
    rw [if_pos rfl]
    cases extended <;> rfl
  · rw [if_neg hnil]
    cases extended with
    | true =>
      rw [if_pos rfl, Bool.true_or]
      split <;> exact isValidUtf8_toUtf8 hicu _ _
    | false =>
      rw [if_neg Bool.false_ne_true, Bool.false_or]
      exact isValidUtf8_outsideWordsFrom hicu joined [] 0 0 false

end

/-! ## Addresses -/

theorem isValidUtf8_stripAngles (s : Bytes) : isValidUtf8 (stripAngles s) = isValidUtf8 s := by
  rw [← isValidUtf8_trim s]
  unfold stripAngles
  dsimp only
  generalize trim s = t
  split
  · rename_i h
    obtain ⟨hhead, hlast⟩ := h
    obtain ⟨a, rfl⟩ := List.getLast?_eq_some_iff.1 hlast
    cases a with
    | nil => cases hhead
    | cons c a =>
      cases hhead
      have hslice : slice (chr '<' :: a ++ [chr '>']) 1 ((chr '<' :: a ++ [chr '>']).length - 2) =
          a := by
        simp [slice]
      have hbetween := @isValidUtf8_between [chr '<'] a [chr '>'] (by decide +kernel)
        (by decide +kernel)
      rw [hslice, ← hbetween]
      rfl
  · rfl

/-- The members of an address list. -/
def members (value : Bytes) : List Bytes := splitOutsideQuotes (flattenGroups value) (chr ',')

/-- The octets of a member that are taken as its address. -/
def addressOctets (raw : Bytes) : Bytes :=
  let part := trim raw
  let bare :=
    if chr '@' ∈ part ∨
        chr ' ' ∉ part ∧ part.head? ≠ some (chr '"') ∧ part.take 2 ≠ str "=?" then part
    else []
  match rfind part (chr '<'), rfind part (chr '>') with
  | some opening, some close =>
    if opening < close then trim (slice part (opening + 1) (close - opening - 1)) else bare
  | _, _ => bare

section

variable {icu : Converter} (hicu : ReturnsUtf8 icu)

/-- The mailbox `parseMailbox` reads, before it drops one that names nobody. -/
theorem parseMailbox_found (icu : Converter) (raw : Bytes) :
    ∃ found : Mailbox, found.email = addressOctets raw ∧
      (found.name = [] ∨ ∃ s, found.name = headerText icu s) ∧
      parseMailbox icu raw = if trim raw = [] then none
        else if found.email = [] ∧ found.name = [] then none
        else if found.name = found.email then some { found with name := [] }
        else some found := by
  unfold parseMailbox addressOctets
  generalize trim raw = part
  dsimp only
  generalize hbare : (if chr '@' ∈ part ∨
      chr ' ' ∉ part ∧ part.head? ≠ some (chr '"') ∧ part.take 2 ≠ str "=?" then
      ({ email := part } : Mailbox)
    else { name := headerText icu (unquote part) }) = token
  have htoken : token.email = (if chr '@' ∈ part ∨
        chr ' ' ∉ part ∧ part.head? ≠ some (chr '"') ∧ part.take 2 ≠ str "=?" then part else []) ∧
      (token.name = [] ∨ ∃ s, token.name = headerText icu s) := by
    subst hbare
    split
    · exact ⟨rfl, .inl rfl⟩
    · exact ⟨rfl, .inr ⟨_, rfl⟩⟩
  cases rfind part (chr '<') with
  | none => exact ⟨token, htoken.1, htoken.2, rfl⟩
  | some opening =>
    cases rfind part (chr '>') with
    | none => exact ⟨token, htoken.1, htoken.2, rfl⟩
    | some close =>
      dsimp only
      by_cases hbehind : opening < close
      · refine ⟨⟨headerText icu (unquote (trim (part.take opening))),
          trim (slice part (opening + 1) (close - opening - 1))⟩, ?_, .inr ⟨_, rfl⟩, ?_⟩
        · rw [if_pos hbehind]
        · simp only [if_pos hbehind]
      · simp only [if_neg hbehind]
        exact ⟨token, htoken.1, htoken.2, rfl⟩

/-- A mailbox has the octets of its member for an address, and a recovered name. -/
theorem parseMailbox_spec {raw : Bytes} {mb : Mailbox} (h : parseMailbox icu raw = some mb) :
    mb.email = addressOctets raw ∧ (mb.name = [] ∨ ∃ s, mb.name = headerText icu s) := by
  obtain ⟨found, hemail, hname, heq⟩ := parseMailbox_found icu raw
  rw [heq] at h
  split at h
  · cases h
  · split at h
    · cases h
    · split at h
      · cases h
        exact ⟨hemail, .inl rfl⟩
      · cases h
        exact ⟨hemail, hname⟩

theorem addressOctets_of_none {raw : Bytes} (h : parseMailbox icu raw = none) :
    addressOctets raw = [] := by
  obtain ⟨found, hemail, _, heq⟩ := parseMailbox_found icu raw
  rw [heq] at h
  split at h
  · rename_i hnil
    unfold addressOctets
    rw [hnil]
    rfl
  · split at h
    · rename_i hboth
      rw [← hemail, hboth.1]
    · split at h <;> cases h

include hicu in
theorem utf8Mailbox_iff {raw : Bytes} {mb : Mailbox} (h : parseMailbox icu raw = some mb) :
    Utf8Mailbox mb ↔ isValidUtf8 (addressOctets raw) = true := by
  obtain ⟨hemail, hname⟩ := parseMailbox_spec h
  rw [← hemail]
  refine ⟨fun h => h.email, fun h => ⟨?_, h⟩⟩
  rcases hname with hnil | ⟨s, hs⟩
  · rw [hnil]
    rfl
  · rw [hs]
    exact isValidUtf8_headerText hicu s

include hicu in
theorem utf8_addressList_iff (value : Bytes) :
    (∀ mb ∈ parseAddressList icu value, Utf8Mailbox mb) ↔
      ∀ raw ∈ members value, isValidUtf8 (addressOctets raw) = true := by
  constructor
  · intro h raw hraw
    cases hmb : parseMailbox icu raw with
    | none => rw [addressOctets_of_none hmb]; rfl
    | some mb => exact (utf8Mailbox_iff hicu hmb).1 (h mb (List.mem_filterMap.2 ⟨raw, hraw, hmb⟩))
  · intro h mb hmb
    obtain ⟨raw, hraw, hparse⟩ := List.mem_filterMap.1 hmb
    exact (utf8Mailbox_iff hicu hparse).2 (h raw hraw)

/-- The first member of an address list that names somebody. -/
def firstMember (icu : Converter) (value : Bytes) : Option Bytes :=
  (members value).find? fun raw => (parseMailbox icu raw).isSome

include hicu in
theorem utf8_sender_iff (value : Bytes) :
    Utf8Mailbox ((parseAddressList icu value).headD {}) ↔
      ∀ raw ∈ firstMember icu value, isValidUtf8 (addressOctets raw) = true := by
  have hhead : (parseAddressList icu value).head? =
      (firstMember icu value).bind (parseMailbox icu) := by
    rw [parseAddressList, List.head?_filterMap, firstMember]
    unfold members
    generalize splitOutsideQuotes (flattenGroups value) (chr ',') = l
    induction l with
    | nil => rfl
    | cons raw l ih =>
      rw [List.findSome?_cons, List.find?_cons]
      cases hmb : parseMailbox icu raw with
      | none => exact ih
      | some mb => exact hmb.symm
  rw [List.headD_eq_head?_getD, hhead]
  cases hfirst : firstMember icu value with
  | none =>
    refine ⟨fun _ raw hraw => (by cases hraw), fun _ => ⟨rfl, rfl⟩⟩
  | some raw =>
    have hsome := List.find?_some hfirst
    obtain ⟨mb, hmb⟩ := Option.isSome_iff_exists.1 hsome
    rw [Option.bind_some, hmb, Option.getD_some, utf8Mailbox_iff hicu hmb]
    simp

/-- The members of the delivery header that recipients are recovered from. -/
def deliveryMembers (icu : Converter) (root : Entity) : List Bytes → List Bytes
  | [] => []
  | name :: names =>
    let value := headerValue root.headers name
    let found := if chr '@' ∈ value then parseAddressList icu value else []
    if found = [] then deliveryMembers icu root names else members value

include hicu in
theorem utf8_deliveredTo_iff (root : Entity) (names : List Bytes) :
    (∀ mb ∈ deliveredTo icu root names, Utf8Mailbox mb) ↔
      ∀ raw ∈ deliveryMembers icu root names, isValidUtf8 (addressOctets raw) = true := by
  induction names with
  | nil => simp [deliveredTo, deliveryMembers]
  | cons name names ih =>
    unfold deliveredTo deliveryMembers
    dsimp only
    by_cases hat : chr '@' ∈ headerValue root.headers name
    · rw [if_pos hat]
      split
      · exact ih
      · exact utf8_addressList_iff hicu _
    · rw [if_neg hat, if_pos rfl, if_pos rfl]
      exact ih

/-! ## The head of a message -/

/-- The members of the address lists of a message that names recipients. -/
def listedMembers (root : Entity) : List Bytes :=
  members (headerValue root.headers (str "To")) ++ members (headerValue root.headers (str "Cc")) ++
    members (headerValue root.headers (str "Bcc")) ++
    members (headerValue root.headers (str "Reply-To"))

/-- Whether the visible headers name a recipient. -/
def namesRecipients (icu : Converter) (root : Entity) : Bool :=
  parseAddressList icu (headerValue root.headers (str "To")) ≠ [] ∨
    parseAddressList icu (headerValue root.headers (str "Cc")) ≠ [] ∨
    parseAddressList icu (headerValue root.headers (str "Bcc")) ≠ []

/-- What `buildMessage` takes over from the headers as received is UTF-8. -/
structure HeadReceived (icu : Converter) (root : Entity) : Prop where
  names : ∀ h ∈ root.headers, isValidUtf8 h.name = true
  messageId : isValidUtf8 (headerValue root.headers (str "Message-ID")) = true
  inReplyTo : isValidUtf8 (headerValue root.headers (str "In-Reply-To")) = true
  sender : ∀ raw ∈ firstMember icu (headerValue root.headers (str "From")),
    isValidUtf8 (addressOctets raw) = true
  listed : ∀ raw ∈ listedMembers root, isValidUtf8 (addressOctets raw) = true
  delivered : namesRecipients icu root = false → ∀ raw ∈ deliveryMembers icu root
    [str "Delivered-To", str "X-Original-To", str "Envelope-To"],
    isValidUtf8 (addressOctets raw) = true

theorem isValidUtf8_messageClassFor (icu : Converter) (root : Entity) :
    isValidUtf8 (messageClassFor icu root) = true := by
  unfold messageClassFor
  dsimp only
  repeat' split
  all_goals decide +kernel

include hicu in
/-- The strings of the message before the walk, whoever the hidden recipients are. -/
theorem utf8Fields_bcc_iff (root : Entity) {bcc : List Mailbox} {raws : List Bytes}
    (hbcc : (∀ mb ∈ bcc, Utf8Mailbox mb) ↔
      ∀ raw ∈ raws, isValidUtf8 (addressOctets raw) = true) :
    Utf8Fields { messageHead icu root with bcc } ↔
      (∀ h ∈ root.headers, isValidUtf8 h.name = true) ∧
      isValidUtf8 (headerValue root.headers (str "Message-ID")) = true ∧
      isValidUtf8 (headerValue root.headers (str "In-Reply-To")) = true ∧
      (∀ raw ∈ firstMember icu (headerValue root.headers (str "From")),
        isValidUtf8 (addressOctets raw) = true) ∧
      (∀ raw ∈ members (headerValue root.headers (str "To")) ++
          members (headerValue root.headers (str "Cc")) ++ raws ++
          members (headerValue root.headers (str "Reply-To")),
        isValidUtf8 (addressOctets raw) = true) := by
  have hlist (name : String) := utf8_addressList_iff hicu (headerValue root.headers (str name))
  have hsender := utf8_sender_iff hicu (headerValue root.headers (str "From"))
  rw [← isValidUtf8_stripAngles (headerValue root.headers (str "Message-ID")),
    ← isValidUtf8_stripAngles (headerValue root.headers (str "In-Reply-To"))]
  simp only [List.forall_mem_append, ← hlist, ← hbcc, ← hsender]
  constructor
  · intro h
    have hboxes := h.mailboxes
    simp only [List.forall_mem_cons, List.forall_mem_append] at hboxes
    refine ⟨fun x hx => ?_, h.messageId, h.inReplyTo, hboxes.1, hboxes.2⟩
    exact (h.headers _ (List.mem_map.2 ⟨x, hx, rfl⟩)).1
  · rintro ⟨hnames, hid, hreply, hfrom, hboxes⟩
    refine ⟨isValidUtf8_messageClassFor icu root, isValidUtf8_headerText hicu _, hid, hreply, rfl,
      rfl, ?_, fun h hh => ?_, fun k hk => (by cases hk), fun a ha => (by cases ha)⟩
    · simp only [List.forall_mem_cons, List.forall_mem_append]
      exact ⟨hfrom, hboxes⟩
    · obtain ⟨x, hx, rfl⟩ := List.mem_map.1 hh
      exact ⟨hnames x hx, isValidUtf8_headerText hicu _⟩

include hicu in
/-- The strings of the message before the walk. -/
theorem utf8Fields_head_iff (root : Entity) :
    Utf8Fields (recoverHiddenRecipients icu root (messageHead icu root)) ↔
      HeadReceived icu root := by
  have hbcc := utf8_addressList_iff hicu (headerValue root.headers (str "Bcc"))
  cases hnamed : namesRecipients icu root with
  | true =>
    have hrecover : recoverHiddenRecipients icu root (messageHead icu root) =
        { messageHead icu root with
          bcc := parseAddressList icu (headerValue root.headers (str "Bcc")) } := by
      have hsome : (messageHead icu root).to_ ≠ [] ∨ (messageHead icu root).cc ≠ [] ∨
          (messageHead icu root).bcc ≠ [] := of_decide_eq_true hnamed
      unfold recoverHiddenRecipients
      rw [if_pos hsome]
      rfl
    rw [hrecover, utf8Fields_bcc_iff hicu root hbcc]
    constructor
    · rintro ⟨hnames, hid, hreply, hfrom, hlisted⟩
      exact ⟨hnames, hid, hreply, hfrom, hlisted, fun h => by rw [hnamed] at h; cases h⟩
    · intro h
      exact ⟨h.names, h.messageId, h.inReplyTo, h.sender, h.listed⟩
  | false =>
    have hrecover : recoverHiddenRecipients icu root (messageHead icu root) =
        { messageHead icu root with
          bcc := deliveredTo icu root
            [str "Delivered-To", str "X-Original-To", str "Envelope-To"] } := by
      have hnone : ¬ ((messageHead icu root).to_ ≠ [] ∨ (messageHead icu root).cc ≠ [] ∨
          (messageHead icu root).bcc ≠ []) := of_decide_eq_false hnamed
      unfold recoverHiddenRecipients
      rw [if_neg hnone]
    -- a list that names nobody has no address in it
    have hnobody : ∀ raw ∈ members (headerValue root.headers (str "Bcc")),
        isValidUtf8 (addressOctets raw) = true := by
      refine hbcc.1 fun mb hmb => ?_
      have hnil := of_decide_eq_false hnamed
      simp only [not_or, not_not] at hnil
      rw [hnil.2.2] at hmb
      cases hmb
    rw [hrecover, utf8Fields_bcc_iff hicu root (utf8_deliveredTo_iff hicu root _)]
    simp only [List.forall_mem_append]
    constructor
    · rintro ⟨hnames, hid, hreply, hfrom, ⟨⟨hto, hcc⟩, hdelivered⟩, hreplyTo⟩
      refine ⟨hnames, hid, hreply, hfrom, ?_, fun _ => hdelivered⟩
      unfold listedMembers
      simp only [List.forall_mem_append]
      exact ⟨⟨⟨hto, hcc⟩, hnobody⟩, hreplyTo⟩
    · intro h
      have hlisted := h.listed
      unfold listedMembers at hlisted
      simp only [List.forall_mem_append] at hlisted
      exact ⟨h.names, h.messageId, h.inReplyTo, h.sender,
        ⟨hlisted.1.1, h.delivered hnamed⟩, hlisted.2⟩

end

/-! ## Attachments -/

section

variable (icu : Converter)

/-- Where an entity has the strings of its attachment from. -/
structure Headed (x : Entity) : Prop where
  mediaType : x.mediaType =
    let media := lower (fieldToken (headerValue x.headers (str "Content-Type")))
    if chr '/' ∈ media then media else str "text/plain"
  contentId : x.contentId = stripAngles (headerValue x.headers (str "Content-ID"))
  filename : x.filename =
    let filename :=
      fieldParameter icu (headerValue x.headers (str "Content-Disposition")) (str "filename")
    if filename = [] then fieldParameter icu (headerValue x.headers (str "Content-Type")) (str "name")
    else filename

inductive HeadedTree : Entity → Prop
  | intro {e : Entity} (head : Headed icu e) (parts : ∀ p ∈ e.parts, HeadedTree p) : HeadedTree e

theorem entityHead_headed (source : Bytes) : Headed icu (entityHead icu source) := by
  refine ⟨?_, rfl, rfl⟩
  unfold entityHead Entity.mediaType
  dsimp only
  generalize lower (fieldToken (headerValue (parseHeaderBlock source).1 (str "Content-Type"))) =
    media
  by_cases hslash : chr '/' ∈ media
  · obtain ⟨a, b, rfl, ha⟩ := List.eq_append_cons_of_mem hslash
    have hfind := find_of_append (s := a ++ chr '/' :: b) (i := 0) rfl ha
    rw [if_pos hslash, hfind, Nat.zero_add]
    dsimp only
    rw [List.take_left, ← List.drop_drop, List.drop_left, List.append_assoc]
    rfl
  · rw [if_neg hslash, find_eq_none (s := media) (i := 0) hslash]
    rfl

theorem parseEntityAt_headed (levels : Nat) (source : Bytes) :
    HeadedTree icu (parseEntityAt icu levels source) := by
  have hleaf (source : Bytes) : HeadedTree icu (decoded (entityHead icu source)) := by
    have hhead := entityHead_headed icu source
    refine .intro ⟨hhead.mediaType, hhead.contentId, hhead.filename⟩ fun p hp => ?_
    have hnil : (decoded (entityHead icu source)).parts = [] := (entityHead_spec icu source).1
    rw [hnil] at hp
    cases hp
  induction levels generalizing source with
  | zero => exact hleaf source
  | succ levels ih =>
    have hhead := entityHead_headed icu source
    have hwith (parts : List Entity) (h : ∀ p ∈ parts, HeadedTree icu p) :
        HeadedTree icu { entityHead icu source with parts } :=
      .intro ⟨hhead.mediaType, hhead.contentId, hhead.filename⟩ h
    simp only [parseEntityAt]
    split
    · refine hwith _ fun p hp => ?_
      obtain ⟨part, _, rfl⟩ := List.mem_map.1 hp
      exact ih part
    · split
      · refine hwith _ fun p hp => ?_
        rw [List.mem_singleton.1 hp]
        exact ih _
      · exact hleaf source

theorem headedTree_of_mem_leaves {e : Entity} (h : HeadedTree icu e) {inAlternative : Bool}
    {l : Leaf} (hl : l ∈ leaves inAlternative e) : HeadedTree icu l.entity := by
  induction h generalizing inAlternative with
  | @intro e head parts ih =>
    rw [leaves] at hl
    split at hl
    · obtain ⟨p, hp, hl⟩ := mem_leavesOfParts.1 hl
      exact ih p hp hl
    · rw [List.mem_singleton.1 hl]
      exact .intro head parts

/-- What an attachment takes over from its part as received is UTF-8. -/
structure PartReceived (x : Entity) : Prop where
  mediaType : chr '/' ∈ fieldToken (headerValue x.headers (str "Content-Type")) →
    isValidUtf8 (fieldToken (headerValue x.headers (str "Content-Type"))) = true
  contentId : isValidUtf8 (headerValue x.headers (str "Content-ID")) = true
  filename : parameterReceived icu (headerValue x.headers (str "Content-Disposition"))
    (str "filename") = true
  name : fieldParameter icu (headerValue x.headers (str "Content-Disposition"))
      (str "filename") = [] →
    parameterReceived icu (headerValue x.headers (str "Content-Type")) (str "name") = true

variable {icu} (hicu : ReturnsUtf8 icu)

theorem mem_lower_slash (s : Bytes) : chr '/' ∈ lower s ↔ chr '/' ∈ s := by
  have hslash : ∀ c : Byte, toLower c = chr '/' ↔ c = chr '/' := forall_byte (by decide +kernel)
  simp only [lower, List.mem_map, hslash, exists_eq_right]

theorem isValidUtf8_decimal (n : Nat) : isValidUtf8 (decimal n) = true := by
  have hdigit : ∀ c : Byte, isDigit c = true → c < 0x80 := forall_byte (by decide +kernel)
  exact isValidUtf8_of_ascii fun c hc => hdigit c (isDigit_of_mem_decimal hc)

include hicu in
theorem isValidUtf8_subject (levels : Nat) (e : Entity) :
    isValidUtf8 (buildMessageAt icu levels e).subject = true := by
  obtain ⟨_, _, _, h⟩ := buildMessageAt_frame icu levels e
  have hsubject : (recoverHiddenRecipients icu e (messageHead icu e)).subject =
      headerText icu (headerValue e.headers (str "Subject")) := by
    unfold recoverHiddenRecipients
    split <;> rfl
  rw [h]
  exact hsubject ▸ isValidUtf8_headerText hicu _

include hicu in
theorem utf8_entity_iff {x : Entity} (hx : Headed icu x) :
    (isValidUtf8 x.filename = true ∧ isValidUtf8 x.mediaType = true ∧
      isValidUtf8 x.contentId = true) ↔ PartReceived icu x := by
  have hmedia : isValidUtf8 x.mediaType = true ↔
      (chr '/' ∈ fieldToken (headerValue x.headers (str "Content-Type")) →
        isValidUtf8 (fieldToken (headerValue x.headers (str "Content-Type"))) = true) := by
    rw [hx.mediaType]
    simp only [mem_lower_slash]
    split
    · rename_i hslash
      rw [isValidUtf8_lower]
      exact ⟨fun h _ => h, fun h => h hslash⟩
    · rename_i hslash
      exact ⟨fun _ h => absurd h hslash, fun _ => by decide +kernel⟩
  have hid : isValidUtf8 x.contentId = isValidUtf8 (headerValue x.headers (str "Content-ID")) := by
    rw [hx.contentId, isValidUtf8_stripAngles]
  have hfilename : isValidUtf8 x.filename = true ↔
      parameterReceived icu (headerValue x.headers (str "Content-Disposition"))
        (str "filename") = true ∧
      (fieldParameter icu (headerValue x.headers (str "Content-Disposition"))
          (str "filename") = [] →
        parameterReceived icu (headerValue x.headers (str "Content-Type")) (str "name") = true) := by
    rw [hx.filename, ← isValidUtf8_fieldParameter hicu, ← isValidUtf8_fieldParameter hicu]
    dsimp only
    split
    · rename_i hnil
      rw [hnil]
      exact ⟨fun h => ⟨rfl, fun _ => h⟩, fun h => h.2 rfl⟩
    · rename_i hne
      exact ⟨fun h => ⟨h, fun hnil => absurd hnil hne⟩, fun h => h.1⟩
  rw [hmedia, hid, hfilename]
  constructor
  · rintro ⟨⟨hfile, hname⟩, htype, hid⟩
    exact ⟨htype, hid, hfile, hname⟩
  · intro h
    exact ⟨⟨h.filename, h.name⟩, h.mediaType, h.contentId⟩

include hicu in
/-- The strings of one attachment. -/
theorem utf8_attachment_iff {x : Entity} (hx : Headed icu x) (levels count : Nat) :
    (isValidUtf8 (attachmentOf (embeddedBuilder icu levels) x count).filename = true ∧
      isValidUtf8 (attachmentOf (embeddedBuilder icu levels) x count).contentType = true ∧
      isValidUtf8 (attachmentOf (embeddedBuilder icu levels) x count).contentId = true) ↔
      PartReceived icu x := by
  rw [← utf8_entity_iff hicu hx]
  generalize ha : attachmentOf (embeddedBuilder icu levels) x count = a
  have hfields : a.contentType = x.mediaType ∧ a.contentId = x.contentId ∧
      (a.filename = x.filename ∨ x.filename = [] ∧
        (isValidUtf8 a.filename = true ∨ a.filename = x.contentId)) := by
    have hblob : isValidUtf8 (str "attachment" ++ decimal (count + 1)) = true :=
      isValidUtf8_append (by decide +kernel) (isValidUtf8_decimal _)
    have hforwarded : isValidUtf8 (str "Forwarded message") = true := by decide +kernel
    -- the names that are made up are UTF-8 themselves
    have hmade (made : Bytes) (h : isValidUtf8 made = true ∨ made = x.contentId) :
        (if x.filename ≠ [] then x.filename else made) = x.filename ∨ x.filename = [] ∧
          (isValidUtf8 (if x.filename ≠ [] then x.filename else made) = true ∨
            (if x.filename ≠ [] then x.filename else made) = x.contentId) := by
      by_cases hnil : x.filename = []
      · rw [if_neg (not_not.2 hnil)]
        exact .inr ⟨hnil, h⟩
      · rw [if_pos hnil]
        exact .inl rfl
    have hplain : isValidUtf8 (if x.contentId = [] then str "attachment" ++ decimal (count + 1)
        else x.contentId) = true ∨ (if x.contentId = [] then str "attachment" ++ decimal (count + 1)
        else x.contentId) = x.contentId := by
      split
      · exact .inl hblob
      · exact .inr rfl
    subst ha
    unfold attachmentOf
    dsimp only
    split
    · cases x.parts with
      | nil => exact ⟨rfl, rfl, hmade _ hplain⟩
      | cons first rest =>
        cases levels with
        | zero => exact ⟨rfl, rfl, hmade _ hplain⟩
        | succ levels =>
          refine ⟨rfl, rfl, hmade _ (.inl ?_)⟩
          split
          · exact hforwarded
          · exact isValidUtf8_subject hicu levels first
    · exact ⟨rfl, rfl, hmade _ hplain⟩
  obtain ⟨htype, hid, hname⟩ := hfields
  rw [htype, hid]
  rcases hname with hname | ⟨hnil, hvalid | hname⟩
  · rw [hname]
  · rw [hnil]
    exact ⟨fun h => ⟨rfl, h.2⟩, fun h => ⟨hvalid, h.2⟩⟩
  · rw [hnil, hname]
    exact ⟨fun h => ⟨rfl, h.2⟩, fun h => ⟨h.2.2, h.2⟩⟩

/-! ## The whole message -/

include hicu in
theorem utf8_bodies (levels : Nat) (e : Entity) (html : Bool) :
    isValidUtf8 (bodyOf html (buildMessageAt icu levels e)) = true := by
  have hmeet (build : Option (Entity → Message)) (ls : List Leaf) (out : Message)
      (h : isValidUtf8 (bodyOf html out) = true) :
      isValidUtf8 (bodyOf html (ls.foldl (meet icu build) out)) = true := by
    induction ls generalizing out with
    | nil => exact h
    | cons l ls ih =>
      refine ih _ ?_
      rw [meet_body]
      split
      · unfold Slot.fill
        split
        · exact isValidUtf8_toUtf8 hicu _ _
        · exact h
      · exact h
  have hhead : isValidUtf8 (bodyOf html (recoverHiddenRecipients icu e (messageHead icu e))) =
      true := by
    unfold recoverHiddenRecipients
    split <;> cases html <;> rfl
  cases levels with
  | zero =>
    rw [buildMessageAt, collect_eq_foldl]
    exact hmeet none _ _ hhead
  | succ levels =>
    rw [buildMessageAt, collect_eq_foldl]
    exact hmeet _ _ _ hhead

variable (icu) in
/-- What the message of a tree takes over as received, with `levels` nesting levels left, is
UTF-8: the head, each attachment, and the messages that are built in turn. -/
def Received : Nat → Entity → Prop
  | 0, e => HeadReceived icu e ∧ ∀ x ∈ attached (leaves false e), PartReceived icu x
  | levels + 1, e => HeadReceived icu e ∧ ∀ x ∈ attached (leaves false e),
      PartReceived icu x ∧ (x.isMessage = true → ∀ first ∈ x.parts.head?, Received levels first)

theorem headed_of_attached {e x : Entity} (he : HeadedTree icu e)
    (hx : x ∈ attached (leaves false e)) : HeadedTree icu x := by
  obtain ⟨l, hl, rfl⟩ := List.mem_map.1 hx
  exact headedTree_of_mem_leaves icu he (List.mem_of_mem_filter hl)

/-- A statement about the attachments is one about the entities that become attachments. -/
theorem forall_attachments_iff {levels : Nat} {e : Entity} {p : Attachment → Prop}
    {q : Entity → Prop}
    (h : ∀ x ∈ attached (leaves false e), ∀ k,
      p (attachmentOf (embeddedBuilder icu levels) x k) ↔ q x) :
    (∀ a ∈ (buildMessageAt icu levels e).attachments, p a) ↔
      ∀ x ∈ attached (leaves false e), q x := by
  constructor
  · intro hall x hx
    obtain ⟨k, hk⟩ := exists_attachment icu levels hx
    exact (h x hx k).1 (hall _ hk)
  · intro hall a ha
    obtain ⟨x, hx, k, rfl⟩ := mem_attachments icu ha
    exact (h x hx k).2 (hall x hx)

include hicu in
theorem utf8Fields_iff {e : Entity} (he : HeadedTree icu e) (levels : Nat) :
    Utf8Fields (buildMessageAt icu levels e) ↔
      HeadReceived icu e ∧ ∀ x ∈ attached (leaves false e), PartReceived icu x := by
  have htext := utf8_bodies hicu levels e false
  have hhtml := utf8_bodies hicu levels e true
  have hparts : (∀ a ∈ (buildMessageAt icu levels e).attachments, isValidUtf8 a.filename = true ∧
      isValidUtf8 a.contentType = true ∧ isValidUtf8 a.contentId = true) ↔
      ∀ x ∈ attached (leaves false e), PartReceived icu x :=
    forall_attachments_iff fun x hx k => by
      obtain ⟨head, _⟩ := headed_of_attached he hx
      exact utf8_attachment_iff hicu head levels k
  have hempty : (recoverHiddenRecipients icu e (messageHead icu e)).bodyText = [] ∧
      (recoverHiddenRecipients icu e (messageHead icu e)).bodyHtml = [] ∧
      (recoverHiddenRecipients icu e (messageHead icu e)).attachments = [] := by
    unfold recoverHiddenRecipients
    split <;> exact ⟨rfl, rfl, rfl⟩
  obtain ⟨hnotext, hnohtml, hnone⟩ := hempty
  obtain ⟨text, html, attachments, hframe⟩ := buildMessageAt_frame icu levels e
  rw [hframe] at htext hhtml hparts ⊢
  rw [← utf8Fields_head_iff hicu, ← hparts]
  constructor
  · intro h
    refine ⟨⟨h.messageClass, h.subject, h.messageId, h.inReplyTo, ?_, ?_, h.mailboxes,
      h.headers, h.keywords, ?_⟩, h.attachments⟩
    · rw [hnotext]
      rfl
    · rw [hnohtml]
      rfl
    · rw [hnone]
      intro a ha
      cases ha
  · rintro ⟨h, ha⟩
    exact ⟨h.messageClass, h.subject, h.messageId, h.inReplyTo, htext, hhtml, h.mailboxes,
      h.headers, h.keywords, ha⟩

theorem utf8Message_cases {m : Message} : Utf8Message m ↔
    Utf8Fields m ∧ ∀ a ∈ m.attachments, ∀ n, a.embedded = some n → Utf8Message n := by
  constructor
  · rintro ⟨fields, inner⟩
    exact ⟨fields, inner⟩
  · rintro ⟨fields, inner⟩
    exact .intro fields inner

include hicu in
theorem utf8Message_iff {e : Entity} (he : HeadedTree icu e) (levels : Nat) :
    Utf8Message (buildMessageAt icu levels e) ↔ Received icu levels e := by
  induction levels generalizing e with
  | zero =>
    rw [utf8Message_cases, utf8Fields_iff hicu he, Received, and_iff_left]
    refine (forall_attachments_iff (q := fun _ => True) fun x _ k => ?_).2 fun _ _ => trivial
    refine iff_true_intro fun n hn => ?_
    obtain ⟨_, _, _, _, hlevels, _⟩ := (embedded_eq_some_iff icu).1 hn
    cases hlevels
  | succ levels ih =>
    have hinner : (∀ a ∈ (buildMessageAt icu (levels + 1) e).attachments, ∀ n,
        a.embedded = some n → Utf8Message n) ↔ ∀ x ∈ attached (leaves false e),
          x.isMessage = true → ∀ first ∈ x.parts.head?, Received icu levels first :=
      forall_attachments_iff fun x hx k => by
        obtain ⟨_, hheaded⟩ := headed_of_attached he hx
        constructor
        · intro h hmessage first hfirst
          refine (ih (hheaded first (List.mem_of_mem_head? hfirst))).1 (h _ ?_)
          exact (embedded_eq_some_iff icu).2 ⟨hmessage, first, hfirst, levels, rfl, rfl⟩
        · intro h n hn
          obtain ⟨hmessage, first, hfirst, below, hbelow, rfl⟩ := (embedded_eq_some_iff icu).1 hn
          cases hbelow
          exact (ih (hheaded first (List.mem_of_mem_head? hfirst))).2 (h hmessage first hfirst)
    rw [utf8Message_cases, utf8Fields_iff hicu he, hinner, Received, and_assoc, ← forall₂_and]

include hicu in
/-- Every string of a message is UTF-8 exactly if what is taken over as received is. -/
theorem everything_is_utf8_iff (source : Bytes) :
    Utf8Message (parseSource icu source) ↔
      Received icu kMaxNestingDepth (parseEntity icu source 0) := by
  have hmessage : Utf8Message (parseSource icu source) ↔
      Utf8Message (buildMessageAt icu kMaxNestingDepth (parseEntity icu source 0)) := by
    rw [utf8Message_cases, utf8Message_cases]
    refine and_congr_left fun _ => ⟨fun h => ?_, fun h => ?_⟩ <;>
    exact ⟨h.messageClass, h.subject, h.messageId, h.inReplyTo, h.bodyText, h.bodyHtml,
      h.mailboxes, h.headers, h.keywords, h.attachments⟩
  rw [hmessage]
  exact utf8Message_iff hicu (parseEntityAt_headed icu _ source) _

end

/-- A message id in windows-1252. -/
def latinMessageId : Bytes :=
  str "Message-ID: <caf" ++ [0xE9] ++ str "@example.org>\nSubject: caf" ++ [0xE9] ++ str "\n\nbody\n"

theorem returnsUtf8_none : ReturnsUtf8 fun _ _ => none := by
  intro charset input output h
  cases h

theorem latinMessageId_utf8_iff : Utf8Message (parseSource (fun _ _ => none) latinMessageId) ↔
    Received (fun _ _ => none) kMaxNestingDepth (parseEntity (fun _ _ => none) latinMessageId 0) :=
  everything_is_utf8_iff returnsUtf8_none latinMessageId

/-- The subject is recovered, the message id is not. -/
theorem message_id_is_not_recovered :
    ¬ ∀ icu, ReturnsUtf8 icu → ∀ source, Utf8Message (parseSource icu source) := by
  intro h
  obtain ⟨fields, _⟩ := h (fun _ _ => none) returnsUtf8_none latinMessageId
  have hno : isValidUtf8 (parseSource (fun _ _ => none) latinMessageId).messageId = false := by
    decide +kernel
  rw [fields.messageId] at hno
  cases hno

end Mime
end Imap2Pst
