import Imap2Pst.Mime.EncodedWords
import Imap2Pst.Mime.Splitter
import Imap2Pst.Mime.Utf8

/-!
# Mime.AddressRoundTrip

Mailboxes written as an address list, and read back.

* `mailboxText`             — a quoted name and an address in angle brackets, or a bare address.
* `Writable`                — the mailboxes that can be written so.
* `address_list_round_trip` — `parseAddressList` returns what was written.
-/

namespace Imap2Pst
namespace Mime

open CxxStd

/-! ## Writing -/

def escapeQuotes (s : Bytes) : Bytes :=
  s.flatMap fun c => if c = chr '"' ∨ c = chr '\\' then [chr '\\', c] else [c]

def quotedName (name : Bytes) : Bytes := chr '"' :: (escapeQuotes name ++ [chr '"'])

/-- A mailbox with `gap` between its name and its address. -/
def mailboxText (gap : Bytes) (mb : Mailbox) : Bytes :=
  if mb.name = [] then mb.email
  else quotedName mb.name ++ (gap ++ chr '<' :: (mb.email ++ [chr '>']))

def mailboxList (gap : Bytes) (mbs : List Mailbox) : Bytes :=
  (str ", ").intercalate (mbs.map (mailboxText gap))

/-- White space, and the specials of RFC 5322 but the two of an address. -/
def isAddressByte (c : Byte) : Bool := !isSpace c && c ∉ str "()<>[]:;,\\\""

structure Writable (mb : Mailbox) : Prop where
  name_utf8 : ValidUtf8 mb.name
  name_printable : ∀ c ∈ mb.name, 32 ≤ c
  name_noWord : ¬ str "=?" <:+: mb.name
  name_ne : mb.name ≠ mb.email
  email_nonempty : mb.email ≠ []
  email_plain : ∀ c ∈ mb.email, isAddressByte c = true
  email_noWord : ¬ str "=?" <+: mb.email

/-! ## Names -/

theorem quotedBody_escape (s : Bytes) : QuotedBody (escapeQuotes s) := by
  induction s with
  | nil => exact .nil
  | cons c s ih =>
    rw [escapeQuotes, List.flatMap_cons]
    split
    · exact .pair ih
    · rename_i hc
      rw [not_or] at hc
      exact .octet hc.1 hc.2 ih

theorem unescape_escape (s : Bytes) : unescape (escapeQuotes s) = s := by
  induction s with
  | nil => rfl
  | cons c s ih =>
    have hcons : escapeQuotes (c :: s) =
        (if c = chr '"' ∨ c = chr '\\' then [chr '\\', c] else [c]) ++ escapeQuotes s := rfl
    rw [hcons]
    split
    · show unescape (chr '\\' :: c :: escapeQuotes s) = c :: s
      rw [unescape, if_pos rfl, ih]
    · rename_i hc
      cases hs : escapeQuotes s with
      | nil =>
        rw [hs] at ih
        rw [← ih]
        rfl
      | cons d t =>
        show unescape (c :: d :: t) = c :: s
        rw [unescape, if_neg fun heq => hc (.inr heq), ← hs, ih]

theorem trim_quotedName (name : Bytes) : trim (quotedName name) = quotedName name :=
  trim_ends (by decide) (by decide) _

/-- Of a quoted string the quotes are taken off. -/
theorem unquote_quoted (body : Bytes) : unquote (chr '"' :: (body ++ [chr '"'])) = unescape body := by
  have hlength : (chr '"' :: (body ++ [chr '"'])).length = body.length + 2 := by simp
  have hlast : (chr '"' :: (body ++ [chr '"'])).getLast? = some (chr '"') := by
    rw [← List.cons_append, List.getLast?_concat]
  have hslice : slice (chr '"' :: (body ++ [chr '"'])) 1
      ((chr '"' :: (body ++ [chr '"'])).length - 2) = body := by
    rw [hlength, Nat.add_sub_cancel]
    exact List.take_left
  rw [unquote, trim_ends (by decide) (by decide), if_neg, hslice]
  rw [not_or, not_or, not_not, not_not]
  exact ⟨by omega, rfl, hlast⟩

theorem unquote_quotedName (name : Bytes) : unquote (quotedName name) = name := by
  rw [quotedName, unquote_quoted, unescape_escape]

section

variable {icu : Converter}

/-- A text without `=?` in which white space is spaces only comes out as it is. -/
theorem decodeEncodedWords_plain {s : Bytes} (hword : ¬ str "=?" <:+: s)
    (hspace : ∀ c ∈ s, isSpace c = true → c = chr ' ') : decodeEncodedWords icu s = s := by
  have hclear : ({ first := s, words := [] } : WordText).Clear icu := by
    refine ⟨fun k _ => if_neg fun h => hword ?_, trivial⟩
    have hpre : str "=?" <+: s.drop k ++ [] := of_decide_eq_true h
    rw [List.append_nil] at hpre
    exact hpre.isInfix.trans (List.drop_suffix k s).isInfix
  have h := decodeEncodedWords_spaced hclear
  simp only [WordText.text, behindText, keptBehind, List.flatMap_nil, List.append_nil] at h
  rw [h, spaced_eq_iff.2 hspace]

theorem headerText_name {mb : Mailbox} (h : Writable mb) : headerText icu mb.name = mb.name := by
  rw [headerText, recoverUtf8, if_pos (isValidUtf8_of_validUtf8 h.name_utf8)]
  refine decodeEncodedWords_plain h.name_noWord fun c hc hspace => ?_
  have hall : ∀ c : Byte, 32 ≤ c → isSpace c = true → c = chr ' ' :=
    forall_byte (by decide +kernel)
  exact hall c (h.name_printable c hc) hspace

/-! ## Mailboxes -/

theorem addressByte {c : Byte} (h : isAddressByte c = true) : isSpace c = false ∧ c ∉ marks ∧
    c ≠ chr ',' ∧ c ≠ chr ';' ∧ c ≠ chr ':' ∧ c ≠ chr '<' ∧ c ≠ chr '>' ∧ c ≠ chr '"' := by
  have hall : ∀ c : Byte, isAddressByte c = true → isSpace c = false ∧ c ∉ marks ∧
      c ≠ chr ',' ∧ c ≠ chr ';' ∧ c ≠ chr ':' ∧ c ≠ chr '<' ∧ c ≠ chr '>' ∧ c ≠ chr '"' :=
    forall_byte (by decide +kernel)
  exact hall c h

/-- A name and an address in angle brackets. -/
theorem parseMailbox_angle {front address : Bytes} {c : Byte}
    (hfront : front.head? = some c) (hc : isSpace c = false) (haddress : chr '<' ∉ address) :
    parseMailbox icu (front ++ chr '<' :: (address ++ [chr '>'])) =
      let mb : Mailbox := ⟨headerText icu (unquote (trim front)), trim address⟩
      if mb.email = [] ∧ mb.name = [] then none
      else if mb.name = mb.email then some { mb with name := [] }
      else some mb := by
  obtain ⟨front, rfl⟩ : ∃ t, front = c :: t := by
    cases front with
    | nil => cases hfront
    | cons d t => cases hfront; exact ⟨t, rfl⟩
  have hclose : (c :: front) ++ chr '<' :: (address ++ [chr '>']) =
      c :: ((front ++ chr '<' :: address) ++ [chr '>']) := by simp
  have htrim : trim ((c :: front) ++ chr '<' :: (address ++ [chr '>'])) =
      (c :: front) ++ chr '<' :: (address ++ [chr '>']) := by
    rw [hclose]
    exact trim_ends hc (by decide) _
  have hless : chr '<' ∉ address ++ [chr '>'] := by
    rw [List.mem_append, not_or]
    exact ⟨haddress, by decide⟩
  have hopening := @rfind_append_cons (c :: front) _ _ hless
  have hclosing : rfind ((c :: front) ++ chr '<' :: (address ++ [chr '>'])) (chr '>') =
      some ((c :: front).length + 1 + address.length) := by
    have h := @rfind_append_cons (c :: (front ++ chr '<' :: address)) [] (chr '>') List.not_mem_nil
    rw [hclose]
    refine h.trans (congrArg some ?_)
    simp
    omega
  have hslice : slice ((c :: front) ++ chr '<' :: (address ++ [chr '>']))
      ((c :: front).length + 1) ((c :: front).length + 1 + address.length - (c :: front).length - 1) =
      address := by
    have hcount : (c :: front).length + 1 + address.length - (c :: front).length - 1 =
        address.length := by omega
    rw [hcount, slice, ← List.drop_drop, List.drop_left]
    exact List.take_left
  have hne : (c :: front) ++ chr '<' :: (address ++ [chr '>']) ≠ [] := List.cons_ne_nil _ _
  have hbehind : (c :: front).length < (c :: front).length + 1 + address.length := by omega
  rw [parseMailbox, htrim, if_neg hne, hopening, hclosing]
  simp only [if_pos hbehind, hslice, List.take_left]

namespace Writable

variable {mb : Mailbox} (h : Writable mb) {gap : Bytes} (hgap : Blank gap)

include h

theorem passes_email (sep : Byte) (hsep : sep = chr ',' ∨ sep = chr ';') :
    Passes sep {} mb.email mb.email {} := by
  refine .plain fun c hc => ?_
  obtain ⟨-, hmarks, hcomma, hsemicolon, -⟩ := addressByte (h.email_plain c hc)
  rcases hsep with rfl | rfl
  · exact ⟨hmarks, hcomma⟩
  · exact ⟨hmarks, hsemicolon⟩

theorem trim_email : trim mb.email = mb.email :=
  trim_of_noSpace fun c hc => (addressByte (h.email_plain c hc)).1

include hgap

/-- A mailbox is one piece, for either separator. -/
theorem passes (sep : Byte) (hsep : sep = chr ',' ∨ sep = chr ';') :
    Passes sep {} (mailboxText gap mb) (mailboxText gap mb) {} := by
  unfold mailboxText
  split
  · exact h.passes_email sep hsep
  · have hblank : Passes sep {} gap gap {} := by
      refine .plain fun c hc => ?_
      obtain ⟨hmarks, hcomma, hsemicolon⟩ := plain_of_blank hgap c hc
      rcases hsep with rfl | rfl
      · exact ⟨hmarks, hcomma⟩
      · exact ⟨hmarks, hsemicolon⟩
    have haddress : Passes sep ⟨.outside, true⟩ mb.email mb.email ⟨.outside, true⟩ :=
      .outside fun c hc => ⟨(addressByte (h.email_plain c hc)).2.1, nofun⟩
    exact ((quotedBody_escape mb.name).passes_quoted sep false).append (hblank.append haddress.angle)

/-- A mailbox is read back. -/
theorem parse : parseMailbox icu (mailboxText gap mb) = some mb := by
  have haddress {c : Byte} (hc : isAddressByte c = false) : c ∉ mb.email := fun hmem => by
    rw [h.email_plain c hmem] at hc
    cases hc
  by_cases hname : mb.name = []
  · have hbare : chr '@' ∈ mb.email ∨ chr ' ' ∉ mb.email ∧ mb.email.head? ≠ some (chr '"') ∧
        mb.email.take 2 ≠ str "=?" := by
      refine .inr ⟨haddress (by decide), fun hhead => ?_, fun htake => ?_⟩
      · exact haddress (by decide) (List.mem_of_mem_head? hhead)
      · exact h.email_noWord (htake ▸ List.take_prefix 2 mb.email)
    rw [mailboxText, if_pos hname, parseMailbox_bare (h.trim_email.symm ▸ h.email_nonempty)
      (haddress (by decide)) (h.trim_email.symm ▸ hbare), h.trim_email, ← hname]
  · have hfront : mailboxText gap mb =
        (quotedName mb.name ++ gap) ++ chr '<' :: (mb.email ++ [chr '>']) := by
      rw [mailboxText, if_neg hname, List.append_assoc]
    rw [hfront, @parseMailbox_angle icu _ _ (chr '"') rfl (by decide)
      (haddress (by decide)), trim_append_blank hgap, trim_quotedName, unquote_quotedName,
      headerText_name h, h.trim_email]
    dsimp only
    rw [if_neg fun hnil => h.email_nonempty hnil.1, if_neg h.name_ne]

end Writable

/-! ## Lists -/

variable {gap : Bytes} (hgap : Blank gap)

theorem mailboxList_cons (mb mb' : Mailbox) (mbs : List Mailbox) :
    mailboxList gap (mb :: mb' :: mbs) =
      mailboxText gap mb ++ chr ',' :: ([chr ' '] ++ mailboxList gap (mb' :: mbs)) := by
  simp [mailboxList, List.intercalate]
  rfl

include hgap

set_option maxRecDepth 20000 in
theorem parseMembers_mailboxList {mbs : List Mailbox} (h : ∀ mb ∈ mbs, Writable mb) :
    parseMembers icu (mailboxList gap mbs) = mbs := by
  have hspace : Blank [chr ' '] := by decide
  have hone {mb : Mailbox} (hmb : Writable mb) : parseMembers icu (mailboxText gap mb) = [mb] := by
    rw [parseMembers, (hmb.passes hgap (chr ',') (.inl rfl)).split.1, List.filterMap_cons,
      hmb.parse hgap]
    rfl
  induction mbs with
  | nil => rfl
  | cons mb mbs ih =>
    rw [List.forall_mem_cons] at h
    cases mbs with
    | nil =>
      rw [mailboxList, List.map_singleton, List.intercalate_singleton]
      exact hone h.1
    | cons mb' mbs =>
      rw [mailboxList_cons, parseMembers_comma (h.1.passes hgap (chr ',') (.inl rfl)).split.2,
        parseMembers_blank hspace, hone h.1, ih h.2]
      rfl

set_option maxRecDepth 20000 in
/-- The list is one piece between semicolons, -/
theorem passes_mailboxList {mbs : List Mailbox} (h : ∀ mb ∈ mbs, Writable mb) :
    Passes (chr ';') {} (mailboxList gap mbs) (mailboxList gap mbs) {} := by
  induction mbs with
  | nil => exact .nil _ _
  | cons mb mbs ih =>
    rw [List.forall_mem_cons] at h
    have hmb := h.1.passes hgap (chr ';') (.inr rfl)
    cases mbs with
    | nil =>
      rw [mailboxList, List.map_singleton, List.intercalate_singleton]
      exact hmb
    | cons mb' mbs =>
      rw [mailboxList_cons]
      have hcomma : Passes (chr ';') {} [chr ',', chr ' '] [chr ',', chr ' '] {} :=
        .plain (by decide)
      exact hmb.append (hcomma.append (ih h.2))

omit hgap in
/-- and its first colon, if it has one, stands in a quoted name. -/
theorem guarded_mailboxList {mbs : List Mailbox} (h : ∀ mb ∈ mbs, Writable mb) :
    Guarded (mailboxList gap mbs) := by
  induction mbs with
  | nil => exact List.not_mem_nil
  | cons mb mbs ih =>
    rw [List.forall_mem_cons] at h
    have hcolon : chr ':' ∉ mb.email := fun hmem =>
      (addressByte (h.1.email_plain _ hmem)).2.2.2.2.1 rfl
    have hfirst {rest : Bytes} (hrest : Guarded rest) : Guarded (mailboxText gap mb ++ rest) := by
      unfold mailboxText
      split
      · exact hrest.behind hcolon
      · exact guarded_cons (by decide) _
    cases mbs with
    | nil =>
      rw [mailboxList, List.map_singleton, List.intercalate_singleton,
        ← List.append_nil (mailboxText _ _)]
      exact hfirst List.not_mem_nil
    | cons mb' mbs =>
      have hcomma : chr ':' ∉ [chr ',', chr ' '] := by decide
      rw [mailboxList_cons]
      exact hfirst ((ih h.2).behind hcomma)

/-- **Address lists.** Mailboxes written as a list are read back. -/
theorem address_list_round_trip {mbs : List Mailbox} (h : ∀ mb ∈ mbs, Writable mb) :
    parseAddressList icu (mailboxList gap mbs) = mbs := by
  rw [parseAddressList_eq, (passes_mailboxList hgap h).split.1, List.flatMap_singleton,
    parseGroup_guarded (guarded_mailboxList h), parseMembers_mailboxList hgap h]

end

/-- A name with every special in it, and a bare address. -/
def directory : List Mailbox :=
  [⟨utf8 "Doë, \"J\\o\": (a) <b@c>; ".toList, str "jo@example.org"⟩, ⟨[], str "root"⟩]

set_option maxRecDepth 20000 in
theorem directory_writable : ∀ mb ∈ directory, Writable mb := by
  intro mb hmb
  rcases List.mem_pair.1 hmb with rfl | rfl
  · exact ⟨⟨_, rfl⟩, by decide, by decide, by decide, by decide,
      by decide, by decide⟩
  · exact ⟨⟨[], rfl⟩, by decide, by decide, by decide, by decide,
      by decide, by decide⟩

set_option maxRecDepth 20000 in
theorem directory_round_trip : parseAddressList (fun _ _ => none)
    (mailboxList (str " ") directory) = directory :=
  address_list_round_trip (by decide) directory_writable

end Mime
end Imap2Pst
