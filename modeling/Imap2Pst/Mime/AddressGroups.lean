import Imap2Pst.Mime.Splitter
import Imap2Pst.Mime.Utf8

/-!
# Mime.AddressGroups

The address lists of RFC 5322, and which of their groups are opened up.

* `IsMailbox`, `Element`  — the grammar of a mailbox, and of a list of mailboxes and groups.
* `parse_list`            — what `parseAddressList` reads off any list.
* `groups_flattened_iff`  — the lists whose groups are all flattened.
-/

namespace Imap2Pst
namespace Mime

open CxxStd

/-! ## Mailboxes -/

/-- An octet that is not one of the specials; the dot of a name or an address is not one. -/
def isPlainByte (c : Byte) : Bool := c ∉ str "()<>[]:;@\\,\""

/-- What stands between the parentheses of a comment. -/
inductive CommentBody : Bytes → Prop
  | nil : CommentBody []
  | octet {c : Byte} {s : Bytes} (hopen : c ≠ chr '(') (hclose : c ≠ chr ')')
      (hescape : c ≠ chr '\\') (h : CommentBody s) : CommentBody (c :: s)
  | pair {c : Byte} {s : Bytes} (h : CommentBody s) : CommentBody (chr '\\' :: c :: s)
  | nested {a s : Bytes} (ha : CommentBody a) (hs : CommentBody s) :
      CommentBody (chr '(' :: (a ++ chr ')' :: s))

/-- Atoms, quoted strings and comments, with white space and dots between them. -/
inductive Words : Bytes → Prop
  | nil : Words []
  | octet {c : Byte} {s : Bytes} (hc : isPlainByte c = true) (h : Words s) : Words (c :: s)
  | quoted {body s : Bytes} (hbody : QuotedBody body) (h : Words s) :
      Words (chr '"' :: (body ++ [chr '"']) ++ s)
  | comment {body s : Bytes} (hbody : CommentBody body) (h : Words s) :
      Words (chr '(' :: (body ++ [chr ')']) ++ s)

/-- Comments and white space. -/
inductive Cfws : Bytes → Prop
  | nil : Cfws []
  | blank {c : Byte} {s : Bytes} (hc : isSpace c = true) (h : Cfws s) : Cfws (c :: s)
  | comment {body s : Bytes} (hbody : CommentBody body) (h : Cfws s) :
      Cfws (chr '(' :: (body ++ [chr ')']) ++ s)

/-- A name with dots, or a literal in brackets whose text is one of `literals`. -/
inductive Domain (literals : Bytes → Prop) : Bytes → Prop
  | words {s : Bytes} (h : Words s) : Domain literals s
  | literal {a text b : Bytes} (ha : Words a) (htext : literals text) (hb : Words b) :
      Domain literals (a ++ chr '[' :: (text ++ chr ']' :: b))

inductive MailboxOver (literals : Bytes → Prop) : Bytes → Prop
  | address {name domain : Bytes} (hname : Words name) (hdomain : Domain literals domain) :
      MailboxOver literals (name ++ chr '@' :: domain)
  | angle {phrase name domain after : Bytes} (hphrase : Words phrase) (hname : Words name)
      (hdomain : Domain literals domain) (hafter : Words after) :
      MailboxOver literals (phrase ++ chr '<' :: (name ++ chr '@' :: (domain ++ chr '>' :: after)))

/-- The text of a domain literal. -/
def LiteralText (s : Bytes) : Prop := ∀ c ∈ s, c ∉ str "[]\\"

abbrev IsMailbox : Bytes → Prop := MailboxOver LiteralText

/-! ## Lists -/

inductive Element
  | mailbox (text : Bytes)
  /-- `label:members;tail` -/
  | group (label members tail : Bytes)

namespace Element

def text : Element → Bytes
  | mailbox text => text
  | group label members tail => label ++ chr ':' :: (members ++ chr ';' :: tail)

def isGroup : Element → Bool
  | mailbox _ => false
  | group _ _ _ => true

/-- The mailboxes of an element, without a label. -/
def members : Element → Bytes
  | mailbox text => text
  | group _ members _ => members

end Element

/-- The elements behind the first one. -/
def tailText (es : List Element) : Bytes := es.flatMap fun e => chr ',' :: e.text

def listText : List Element → Bytes
  | [] => []
  | e :: es => e.text ++ tailText es

/-- The members of a group: a list of mailboxes, or nothing. -/
inductive IsMembers : Bytes → Prop
  | none {s : Bytes} (h : Cfws s) : IsMembers s
  | mailboxes {m : Bytes} {ms : List Bytes} (hm : IsMailbox m) (hms : ∀ m' ∈ ms, IsMailbox m') :
      IsMembers (m ++ ms.flatMap fun m' => chr ',' :: m')

inductive WellFormedElement : Element → Prop
  | mailbox {m : Bytes} (h : IsMailbox m) : WellFormedElement (.mailbox m)
  | group {label members tail : Bytes} (hlabel : ∀ c ∈ label, isPlainByte c = true)
      (hmembers : IsMembers members) (htail : Cfws tail) : WellFormedElement (.group label members tail)

/-- The text is not cut at a semicolon, and nothing is open behind it. -/
def Whole (s : Bytes) : Prop := ∃ kept, Passes (chr ';') {} s kept {}

/-- Every mailbox and group reads as it does alone, without its label. -/
def Flattened (icu : Converter) (es : List Element) : Prop :=
  parseAddressList icu (listText es) = es.flatMap fun e => parseAddressList icu e.members

/-- Whatever stands before a group is a group. -/
def GroupsFirst (es : List Element) : Prop := es.Pairwise fun a b => b.isGroup → a.isGroup

/-! ## Passing -/

theorem plainByte {c : Byte} (h : isPlainByte c = true) :
    c ∉ marks ∧ c ≠ chr ',' ∧ c ≠ chr ';' ∧ c ≠ chr ':' ∧ isGuard c = false ∧ c ≠ chr '>' := by
  have hall : ∀ c : Byte, isPlainByte c = true → c ∉ marks ∧ c ≠ chr ',' ∧ c ≠ chr ';' ∧
      c ≠ chr ':' ∧ isGuard c = false ∧ c ≠ chr '>' := forall_byte (by decide +kernel)
  exact hall c h

theorem CommentBody.passes {body : Bytes} (h : CommentBody body) (sep : Byte) (depth : Nat)
    (angle : Bool) : Passes sep ⟨.comment depth, angle⟩ body [] ⟨.comment depth, angle⟩ := by
  induction h generalizing depth with
  | nil => exact .nil sep _
  | @octet c s hopen hclose hescape h ih =>
    have hnext : Lexer.next ⟨.comment depth, angle⟩ c = ⟨.comment depth, angle⟩ := by
      simp [Lexer.next, hescape, hopen, hclose]
    refine .cons (not_cuts_of_mode (by simp) _) ?_
    rw [hnext]
    exact ih depth
  | @pair c s h ih =>
    have hnext : Lexer.next ⟨.comment depth, angle⟩ (chr '\\') = ⟨.commentEscape depth, angle⟩ := by
      simp [Lexer.next]
    refine .cons (not_cuts_of_mode (by simp) _) ?_
    rw [hnext]
    exact .cons (not_cuts_of_mode (by simp) _) (ih depth)
  | @nested a s ha hs iha ihs =>
    have hopen : Passes sep ⟨.comment depth, angle⟩ [chr '('] [] ⟨.comment (depth + 1), angle⟩ :=
      .octet (not_cuts_of_mode (by simp) _)
    have hclose : Passes sep ⟨.comment (depth + 1), angle⟩ [chr ')'] [] ⟨.comment depth, angle⟩ :=
      .octet (not_cuts_of_mode (by simp) _)
    exact hopen.append ((iha (depth + 1)).append (hclose.append (ihs depth)))

/-- A comment leaves nothing. -/
theorem CommentBody.passes_comment {body : Bytes} (h : CommentBody body) (sep : Byte)
    (angle : Bool) : Passes sep ⟨.outside, angle⟩ (chr '(' :: (body ++ [chr ')'])) []
      ⟨.outside, angle⟩ := by
  have hopen : Passes sep ⟨.outside, angle⟩ [chr '('] [] ⟨.comment 0, angle⟩ :=
    .octet (not_cuts_of_mark (by decide) _)
  have hclose : Passes sep ⟨.comment 0, angle⟩ [chr ')'] [] ⟨.outside, angle⟩ :=
    .octet (not_cuts_of_mode (by simp) _)
  exact hopen.append ((h.passes sep 0 angle).append hclose)

theorem Words.passes {w : Bytes} (h : Words w) {sep : Byte} (hsep : sep = chr ',' ∨ sep = chr ';')
    (angle : Bool) : ∃ kept, Passes sep ⟨.outside, angle⟩ w kept ⟨.outside, angle⟩ ∧ Guarded kept := by
  induction h with
  | nil => exact ⟨[], .nil sep _, List.not_mem_nil⟩
  | @octet c s hc h ih =>
    obtain ⟨kept, hkept, hguarded⟩ := ih
    obtain ⟨hmarks, hcomma, hsemicolon, hcolon, -, -⟩ := plainByte hc
    have hne : c ≠ sep := by
      rcases hsep with rfl | rfl
      · exact hcomma
      · exact hsemicolon
    refine ⟨[c] ++ kept, (Passes.stay hmarks fun _ => hne).append hkept, hguarded.behind ?_⟩
    rw [List.mem_singleton]
    exact Ne.symm hcolon
  | quoted hbody h ih =>
    obtain ⟨kept, hkept, hguarded⟩ := ih
    exact ⟨_, (hbody.passes_quoted sep angle).append hkept, guarded_cons (by decide) _⟩
  | comment hbody h ih =>
    obtain ⟨kept, hkept, hguarded⟩ := ih
    exact ⟨[] ++ kept, (hbody.passes_comment sep angle).append hkept, hguarded⟩

theorem Cfws.passes {w : Bytes} (h : Cfws w) {sep : Byte} (hsep : ¬ Blank [sep]) :
    ∃ kept, Passes sep {} w kept {} ∧ Blank kept := by
  induction h with
  | nil => exact ⟨[], .nil sep _, blank_nil⟩
  | @blank c s hc h ih =>
    obtain ⟨kept, hkept, hblank⟩ := ih
    have hone : Blank [c] := blank_cons.2 ⟨hc, blank_nil⟩
    have hne : c ≠ sep := fun heq => hsep (heq ▸ hone)
    refine ⟨[c] ++ kept, ?_, blank_append.2 ⟨hone, hblank⟩⟩
    exact (Passes.stay (plain_of_blank hone c List.mem_cons_self).1 fun _ => hne).append hkept
  | comment hbody h ih =>
    obtain ⟨kept, hkept, hblank⟩ := ih
    exact ⟨[] ++ kept, (hbody.passes_comment sep false).append hkept, hblank⟩

/-- A literal without the octets that the splitter takes for its own. -/
def PlainLiteral (s : Bytes) : Prop := ∀ c ∈ s, c ∉ marks ∧ c ≠ chr ';'

theorem Domain.passes {d : Bytes} (h : Domain PlainLiteral d) (angle : Bool) :
    ∃ kept, Passes (chr ';') ⟨.outside, angle⟩ d kept ⟨.outside, angle⟩ := by
  cases h with
  | words hw =>
    obtain ⟨kept, hkept, -⟩ := hw.passes (.inr rfl) angle
    exact ⟨kept, hkept⟩
  | literal ha htext hb =>
    obtain ⟨kept, hkept, -⟩ := ha.passes (.inr rfl) angle
    obtain ⟨kept', hkept', -⟩ := hb.passes (.inr rfl) angle
    have hopen := @Passes.stay (chr ';') (chr '[') angle (by decide) fun _ => by decide
    have hclose := @Passes.stay (chr ';') (chr ']') angle (by decide) fun _ => by decide
    have hinside : Passes (chr ';') ⟨.outside, angle⟩ _ _ ⟨.outside, angle⟩ :=
      .outside fun c hc => ⟨(htext c hc).1, fun _ => (htext c hc).2⟩
    exact ⟨_, hkept.append (hopen.append (hinside.append (hclose.append hkept')))⟩

/-- The mailboxes that the splitter passes over. -/
theorem MailboxOver.whole {m : Bytes} (h : MailboxOver PlainLiteral m) : Whole m := by
  have hat (angle : Bool) := @Passes.stay (chr ';') (chr '@') angle (by decide) fun _ => by decide
  cases h with
  | address hname hdomain =>
    obtain ⟨kept, hkept, -⟩ := hname.passes (.inr rfl) false
    obtain ⟨kept', hkept'⟩ := hdomain.passes false
    exact ⟨_, hkept.append ((hat false).append hkept')⟩
  | @angle phrase name domain after hphrase hname hdomain hafter =>
    obtain ⟨front, hfront, -⟩ := hphrase.passes (.inr rfl) false
    obtain ⟨kept, hkept, -⟩ := hname.passes (.inr rfl) true
    obtain ⟨kept', hkept'⟩ := hdomain.passes true
    obtain ⟨back, hback, -⟩ := hafter.passes (.inr rfl) false
    have hmiddle := (hkept.append ((hat true).append hkept')).angle
    have htext : phrase ++ chr '<' :: (name ++ chr '@' :: (domain ++ chr '>' :: after)) =
        phrase ++ (chr '<' :: ((name ++ ([chr '@'] ++ domain)) ++ [chr '>']) ++ after) := by simp
    exact htext ▸ ⟨_, hfront.append (hmiddle.append hback)⟩

/-! ## Kept texts -/

/-- A text whose first guard has no colon before it, and is there. -/
def Marked (s : Bytes) : Prop := Guarded s ∧ ∃ c ∈ s, isGuard c = true

theorem Marked.append {a : Bytes} (h : Marked a) (b : Bytes) : Marked (a ++ b) := by
  obtain ⟨hguarded, c, hc, hguard⟩ := h
  exact ⟨guarded_of_mem hguarded ⟨c, hc, hguard⟩ b, c, List.mem_append_left b hc, hguard⟩

theorem Marked.behind {a b : Bytes} (ha : Guarded a) (h : Marked b) : Marked (a ++ b) := by
  obtain ⟨hguarded, c, hc, hguard⟩ := h
  exact ⟨ha.append hguarded, c, List.mem_append_right a hc, hguard⟩

/-- An address begins with words, up to its `'@'` or `'<'`. -/
theorem MailboxOver.front {literals : Bytes → Prop} {m : Bytes} (h : MailboxOver literals m) :
    ∃ w d rest, m = w ++ d :: rest ∧ Words w ∧ (d = chr '@' ∨ d = chr '<') := by
  cases h with
  | address hname hdomain => exact ⟨_, _, _, rfl, hname, .inl rfl⟩
  | angle hphrase hname hdomain hafter => exact ⟨_, _, _, rfl, hphrase, .inr rfl⟩

theorem marked_kept {w rest kept : Bytes} {d : Byte} {r : Lexer} (hw : Words w)
    (hd : d = chr '@' ∨ d = chr '<') (h : Passes (chr ';') {} (w ++ d :: rest) kept r) :
    Marked kept := by
  obtain ⟨front, hfront, hguarded⟩ := hw.passes (.inr rfl) false
  have hguard : isGuard d = true := by rcases hd with rfl | rfl <;> decide
  have hcuts : Lexer.cuts (chr ';') {} d = false := by rcases hd with rfl | rfl <;> decide
  have hkeeps : Lexer.keeps {} d = true := by rcases hd with rfl | rfl <;> decide
  have hcut := h.cut_eq
  rw [cut_append, hfront.cut_eq, hfront.run_eq, cut, hcuts, if_neg Bool.false_ne_true, hkeeps,
    if_pos rfl] at hcut
  obtain ⟨p, ps, hps⟩ := List.exists_cons_of_ne_nil
    (cut_ne_nil (chr ';') (Lexer.next {} d) rest)
  rw [hps] at hcut
  cases hcut
  exact .behind hguarded ⟨guarded_cons hguard _, d, List.mem_cons_self, hguard⟩

theorem IsMailbox.marked {m rest kept : Bytes} {r : Lexer} (hm : IsMailbox m)
    (h : Passes (chr ';') {} (m ++ rest) kept r) : Marked kept := by
  obtain ⟨w, d, t, rfl, hw, hd⟩ := MailboxOver.front hm
  rw [List.append_assoc, List.cons_append] at h
  exact marked_kept hw hd h

section

variable {icu : Converter}

theorem parseMembers_whole {s kept : Bytes} (h : Passes (chr ';') {} s kept {}) :
    parseMembers icu kept = parseMembers icu s := by
  have hcut := @cut_kept (chr ',') _ _ _ _ h.cut_eq
  rw [parseMembers, parseMembers, splitOutsideQuotes_eq, splitOutsideQuotes_eq]
  exact congrArg _ hcut

theorem parseMembers_of_blank {b : Bytes} (hb : Blank b) : parseMembers icu b = [] := by
  rw [← List.append_nil b, parseMembers_blank hb, parseMembers_nil]

theorem IsMembers.guarded {members kept : Bytes} {r : Lexer} (hmembers : IsMembers members)
    (h : Passes (chr ';') {} members kept r) : Guarded kept := by
  cases hmembers with
  | none hcfws =>
    obtain ⟨kept', hkept, hblank⟩ := @Cfws.passes _ hcfws (chr ';') (by decide)
    have heq : [kept] = [kept'] := h.cut_eq.symm.trans hkept.cut_eq
    cases heq
    exact fun hmem => (unguarded_of_blank hblank _ ((List.takeWhile_prefix _).subset hmem)).1 rfl
  | mailboxes hm hms => exact (hm.marked h).1

/-- A text that does not begin with a label is a list of members. -/
theorem parse_whole {s kept : Bytes} (h : Passes (chr ';') {} s kept {}) (hguarded : Guarded kept) :
    parseAddressList icu s = parseMembers icu s := by
  rw [parseAddressList_eq, h.split.1, List.flatMap_singleton, parseGroup_guarded hguarded,
    parseMembers_whole h]

/-! ## Reading -/

/-- What is read: the label of a group behind a mailbox is taken for part of its first member. -/
def listReads (icu : Converter) : Bool → List Element → List Mailbox
  | _, [] => []
  | _, .mailbox m :: es => parseMembers icu m ++ listReads icu true es
  | false, .group _ members _ :: es => parseMembers icu members ++ listReads icu false es
  | true, .group label members _ :: es =>
    parseMembers icu (label ++ chr ':' :: members) ++ listReads icu false es

/-- What stands in the piece between two semicolons already, and whether a mailbox does. -/
structure Pending (icu : Converter) (behindMailbox : Bool) (x : Bytes) : Prop where
  settled : Settled x
  marked : behindMailbox = true → Marked x
  plain : behindMailbox = false →
    (∀ c ∈ x, c ≠ chr ':' ∧ isGuard c = false) ∧ parseMembers icu x = []

theorem Pending.guarded {b : Bool} {x : Bytes} (h : Pending icu b x) : Guarded x := by
  cases b with
  | true => exact (h.marked rfl).1
  | false =>
    exact fun hmem => ((h.plain rfl).1 _ ((List.takeWhile_prefix _).subset hmem)).1 rfl

theorem Pending.start : Pending icu false [] where
  settled := rfl
  marked := by simp
  plain := fun _ => ⟨by simp, rfl⟩

/-- No member goes on behind the text. -/
def Ended (icu : Converter) (x : Bytes) : Prop :=
  ∀ v, parseMembers icu (x ++ v) = parseMembers icu x ++ parseMembers icu v

set_option maxRecDepth 20000 in
theorem Pending.comma {b : Bool} {x : Bytes} (h : Pending icu b x) :
    Pending icu b (x ++ [chr ',']) ∧ Ended icu (x ++ [chr ',']) ∧
      parseMembers icu (x ++ [chr ',']) = parseMembers icu x := by
  have hsettled : Settled [chr ','] := by decide
  have hsame : parseMembers icu (x ++ [chr ',']) = parseMembers icu x := by
    rw [parseMembers_comma h.settled, parseMembers_nil, List.append_nil]
  refine ⟨⟨h.settled.append hsettled, fun hb => (h.marked hb).append _, fun hb => ?_⟩,
    fun v => ?_, hsame⟩
  · refine ⟨?_, hsame.trans (h.plain hb).2⟩
    rw [List.forall_mem_append]
    exact ⟨(h.plain hb).1, by decide⟩
  · rw [hsame, List.append_assoc, List.singleton_append, parseMembers_comma h.settled]

/-- The text behind `x`, cut at its semicolons and read. -/
def readBehind (icu : Converter) (x v : Bytes) : List Mailbox :=
  (pushFront x (splitOutsideQuotes v (chr ';'))).flatMap (parseGroup icu)

theorem readBehind_passes {x s v kept : Bytes} (h : Passes (chr ';') {} s kept {}) :
    readBehind icu x (s ++ v) = readBehind icu (x ++ kept) v := by
  rw [readBehind, splitOutsideQuotes_append h.split.2, h.split.1, glue, pushFront_pushFront]
  rfl

/-- The step at a mailbox, -/
theorem read_mailbox {b : Bool} {x m : Bytes} (hx : Pending icu b x) (hended : Ended icu x)
    (hm : IsMailbox m) (hwhole : Whole m) : ∃ x', Pending icu true x' ∧
      parseMembers icu x' = parseMembers icu x ++ parseMembers icu m ∧
      ∀ v, readBehind icu x (m ++ v) = readBehind icu x' v := by
  obtain ⟨kept, hkept⟩ := hwhole
  have hmarked : Marked kept := by
    rw [← List.append_nil m] at hkept
    exact hm.marked hkept
  have hsettled : Settled kept := by
    have hbetween := splitOutsideQuotes_between m (chr ';')
    rw [hkept.split.1, hkept.run_eq] at hbetween
    exact hbetween.2
  refine ⟨x ++ kept, ⟨hx.settled.append hsettled, fun _ => .behind hx.guarded hmarked, by simp⟩, ?_,
    fun v => readBehind_passes hkept⟩
  rw [hended, parseMembers_whole hkept]

/-- and at a group. -/
theorem read_group {b : Bool} {x label members tail : Bytes} (hx : Pending icu b x)
    (hended : Ended icu x) (hlabel : ∀ c ∈ label, isPlainByte c = true)
    (htail : Cfws tail) (hwhole : Whole members) : ∃ x', Pending icu false x' ∧
      ∀ v, readBehind icu x ((Element.group label members tail).text ++ v) =
        parseMembers icu x ++ parseMembers icu (if b then label ++ chr ':' :: members else members) ++
          readBehind icu x' v := by
  obtain ⟨kept, hkept⟩ := hwhole
  obtain ⟨blank, hblank, hb⟩ := @Cfws.passes _ htail (chr ';') (by decide)
  have hfront : Passes (chr ';') {} (label ++ [chr ':']) (label ++ [chr ':']) {} := by
    refine .plain fun c hc => ?_
    rcases List.mem_append.1 hc with hc | hc
    · exact ⟨(plainByte (hlabel c hc)).1, (plainByte (hlabel c hc)).2.2.1⟩
    · rw [List.mem_singleton.1 hc]
      decide
  have hgroup := hfront.append hkept
  refine ⟨blank, ⟨settled_blank hb, by simp, fun _ => ⟨unguarded_of_blank hb,
    parseMembers_of_blank hb⟩⟩, fun v => ?_⟩
  have htext : (Element.group label members tail).text ++ v =
      ((label ++ [chr ':']) ++ members) ++ chr ';' :: (tail ++ v) := by
    simp [Element.text]
  have hrest : (splitOutsideQuotes (tail ++ v) (chr ';')).flatMap (parseGroup icu) =
      readBehind icu blank v := by
    rw [splitOutsideQuotes_append hblank.split.2, hblank.split.1]
    rfl
  rw [readBehind, htext, splitOutsideQuotes_sep hgroup.split.2 (by decide), hgroup.split.1,
    List.singleton_append, pushFront_cons, List.flatMap_cons, hrest]
  congr 1
  cases b with
  | true =>
    have hmarked := (hx.marked rfl).append ((label ++ [chr ':']) ++ kept)
    rw [parseGroup_guarded hmarked.1, hended, parseMembers_whole hgroup, if_pos rfl,
      List.append_assoc, List.singleton_append]
  | false =>
    obtain ⟨hplain, hnil⟩ := hx.plain rfl
    have hlong : x ++ ((label ++ [chr ':']) ++ kept) = (x ++ label) ++ chr ':' :: kept := by simp
    rw [hlong, parseGroup_label, hnil, List.nil_append, parseMembers_whole hkept]
    · rfl
    · intro c hc
      rcases List.mem_append.1 hc with hc | hc
      · exact hplain c hc
      · obtain ⟨-, -, -, hcolon, hguard, -⟩ := plainByte (hlabel c hc)
        exact ⟨hcolon, hguard⟩

theorem read_element {b : Bool} {x : Bytes} {e : Element} (hx : Pending icu b x)
    (hended : Ended icu x) (he : WellFormedElement e) (hwhole : Whole e.members) (es : List Element) :
    ∃ b' x', Pending icu b' x' ∧ ∃ front,
      (∀ v, readBehind icu x (e.text ++ v) = front ++ readBehind icu x' v) ∧
        front ++ (parseMembers icu x' ++ listReads icu b' es) =
          parseMembers icu x ++ listReads icu b (e :: es) := by
  cases he with
  | mailbox hm =>
    obtain ⟨x', hx', hreads, hstep⟩ := read_mailbox hx hended hm hwhole
    refine ⟨true, x', hx', [], hstep, ?_⟩
    cases b <;> rw [hreads, List.nil_append, listReads, List.append_assoc]
  | group hlabel hmembers htail =>
    obtain ⟨x', hx', hstep⟩ := read_group hx hended hlabel htail hwhole
    refine ⟨false, x', hx', _, hstep, ?_⟩
    rw [(hx'.plain rfl).2, List.nil_append]
    cases b <;> rw [listReads, List.append_assoc] <;> rfl

theorem read_tail {b : Bool} {x : Bytes} {es : List Element} (hx : Pending icu b x)
    (hes : ∀ e ∈ es, WellFormedElement e) (hwhole : ∀ e ∈ es, Whole e.members) :
    readBehind icu x (tailText es) = parseMembers icu x ++ listReads icu b es := by
  induction es generalizing b x with
  | nil =>
    have hone : readBehind icu x (tailText []) = parseGroup icu (x ++ []) := by
      rw [readBehind]
      exact List.flatMap_singleton _ _
    rw [hone, List.append_nil, parseGroup_guarded hx.guarded]
    cases b <;> exact (List.append_nil _).symm
  | cons e es ih =>
    rw [List.forall_mem_cons] at hes hwhole
    obtain ⟨hcomma, hended, hsame⟩ := hx.comma
    obtain ⟨b', x', hx', front, hstep, hfront⟩ := read_element hcomma hended hes.1 hwhole.1 es
    have hsep : Passes (chr ';') {} [chr ','] [chr ','] {} :=
      .stay (by decide) fun _ => by decide
    have htail : tailText (e :: es) = [chr ','] ++ (e.text ++ tailText es) := by
      simp [tailText]
    rw [htail, readBehind_passes hsep, hstep, ih hx' hes.2 hwhole.2, hfront, hsame]

/-- What is read off any list. -/
theorem parse_list {es : List Element} (hes : ∀ e ∈ es, WellFormedElement e)
    (hwhole : ∀ e ∈ es, Whole e.members) :
    parseAddressList icu (listText es) = listReads icu false es := by
  have hstart (v : Bytes) : parseAddressList icu v = readBehind icu [] v := by
    rw [parseAddressList_eq, readBehind, pushFront_nil (splitOutsideQuotes_ne_nil _ _)]
  cases es with
  | nil => rfl
  | cons e es =>
    rw [List.forall_mem_cons] at hes hwhole
    obtain ⟨b', x', hx', front, hstep, hfront⟩ :=
      read_element .start (fun _ => rfl) hes.1 hwhole.1 es
    rw [hstart, listText, hstep, read_tail hx' hes.2 hwhole.2, hfront, parseMembers_nil,
      List.nil_append]

theorem parse_members {e : Element} (he : WellFormedElement e) (hwhole : Whole e.members) :
    parseAddressList icu e.members = parseMembers icu e.members := by
  obtain ⟨kept, hkept⟩ := hwhole
  refine parse_whole hkept ?_
  cases he with
  | mailbox hm =>
    rw [← List.append_nil (Element.members _)] at hkept
    exact (hm.marked hkept).1
  | group hlabel hmembers htail => exact hmembers.guarded hkept

theorem listReads_mailboxes {es : List Element} (h : ∀ e ∈ es, e.isGroup = false) :
    listReads icu true es = es.flatMap fun e => parseMembers icu e.members := by
  induction es with
  | nil => rfl
  | cons e es ih =>
    rw [List.forall_mem_cons] at h
    cases e with
    | mailbox m => rw [listReads, ih h.2, List.flatMap_cons]; rfl
    | group label members tail => cases h.1

theorem listReads_groupsFirst {es : List Element} (h : GroupsFirst es) :
    listReads icu false es = es.flatMap fun e => parseMembers icu e.members := by
  induction es with
  | nil => rfl
  | cons e es ih =>
    obtain ⟨hfirst, hrest⟩ := List.pairwise_cons.1 h
    cases e with
    | mailbox m =>
      have hnone : ∀ e ∈ es, e.isGroup = false := fun e he =>
        Bool.eq_false_iff.2 fun hgroup => absurd (hfirst e he hgroup) Bool.false_ne_true
      rw [listReads, listReads_mailboxes hnone, List.flatMap_cons]
      rfl
    | group label members tail =>
      rw [listReads, ih hrest, List.flatMap_cons]
      rfl

/-! ## Groups behind a mailbox -/

/-- A bare address of atoms. -/
def PlainAddress (a : Bytes) : Prop :=
  chr '@' ∈ a ∧ ∀ c ∈ a, isPlainByte c = true ∨ c = chr '@'

/-- The group is empty, or its first member is a bare address. -/
def AddressFirst (members : Bytes) : Prop :=
  Cfws members ∨ ∃ a rest, members = a ++ rest ∧ PlainAddress a ∧
    (rest = [] ∨ ∃ r, rest = chr ',' :: r)

/-- The octets of all names and addresses. -/
def weight (mbs : List Mailbox) : Nat :=
  (mbs.map fun mb => mb.name.length + mb.email.length).sum

theorem weight_append (xs ys : List Mailbox) : weight (xs ++ ys) = weight xs + weight ys := by
  simp [weight]

/-- A text with an `'@'`, and without angle brackets, is an address. -/
theorem parseMailbox_address {a : Bytes} (hat : chr '@' ∈ a) (hangle : chr '<' ∉ a) :
    parseMailbox icu a = some ⟨[], trim a⟩ := by
  have hmem : chr '@' ∈ trim a := mem_trim (by decide) hat
  exact parseMailbox_bare (List.ne_nil_of_mem hmem) hangle (.inl hmem)

/-- The last octet comes out, unless it may end an encoded word. -/
theorem decodeWordsFrom_concat {c : Byte} (hc : isSpace c = false) (heq : c ≠ chr '=') (s : Bytes)
    {skip : Nat} (hskip : skip ≤ s.length) (pending : Nat) (encoded : Bool) :
    decodeWordsFrom icu skip pending encoded (s ++ [c]) ≠ [] := by
  induction s generalizing skip pending encoded with
  | nil =>
    obtain rfl : skip = 0 := Nat.le_zero.1 hskip
    have hword : isEncodedWordStart [c] = false := by
      refine decide_eq_false fun h => ?_
      have hlength : (str "=?").length = 2 := by decide
      have hle := h.length_le
      rw [hlength, List.length_singleton] at hle
      omega
    rw [List.nil_append, decodeWordsFrom, hword, if_neg Bool.false_ne_true]
    dsimp only
    rw [hc, if_neg Bool.false_ne_true]
    simp
  | cons d s ih =>
    rw [List.cons_append]
    unfold decodeWordsFrom
    cases skip with
    | succ skip => exact ih (Nat.le_of_succ_le_succ hskip) pending encoded
    | zero =>
      dsimp only
      split
      · rename_i decoded consumed hword
        split at hword
        · obtain ⟨-, a, ha⟩ := decodeOneWord_split hword
          have hrest : (d :: (s ++ [c])).drop consumed ≠ [] := by
            intro hnil
            rw [hnil, ← List.cons_append] at ha
            exact heq (List.append_inj_right' ha rfl |> List.cons.inj |>.1)
          have hlength := List.length_pos_iff.2 hrest
          rw [List.length_drop, List.length_cons, List.length_append, List.length_singleton] at hlength
          exact List.append_ne_nil_of_right_ne_nil _ (ih (by omega) _ _)
        · cases hword
      · split
        · exact ih (Nat.zero_le _) _ _
        · simp

theorem headerText_ne_nil {c : Byte} (hc : isSpace c = false) (heq : c ≠ chr '=') (hascii : c < 0x80)
    (s : Bytes) : headerText icu (s ++ [c]) ≠ [] := by
  obtain ⟨t, ht⟩ : ∃ t, recoverUtf8 (s ++ [c]) = t ++ [c] := by
    unfold recoverUtf8
    split
    · exact ⟨s, rfl⟩
    · refine ⟨windows1252ToUtf8 s, ?_⟩
      rw [windows1252ToUtf8, List.flatMap_append, List.flatMap_singleton, if_pos hascii]
      rfl
  rw [headerText, ht]
  exact decodeWordsFrom_concat hc heq t (Nat.zero_le _) 0 false

theorem label_mark {label : Bytes} (h : ∀ c ∈ label, isPlainByte c = true) {c : Byte}
    (hc : isPlainByte c = false) : c ∉ label := by
  intro hmem
  rw [h c hmem] at hc
  cases hc

/-- A label alone names somebody. -/
theorem parseMailbox_label {label : Bytes} (h : ∀ c ∈ label, isPlainByte c = true) {b : Bytes}
    (hb : Blank b) : ∃ mb, parseMailbox icu (label ++ chr ':' :: b) = some mb ∧ 0 < weight [mb] := by
  have hangle : chr '<' ∉ label ++ chr ':' :: b := by
    simp only [List.mem_append, List.mem_cons, not_or]
    exact ⟨label_mark h (by decide), by decide, fun hmem => absurd (hb _ hmem) (by decide)⟩
  have hright : trimRight b = [] := by
    have hnil := @trimRight_append_blank [] b hb
    rwa [List.nil_append] at hnil
  have htrim : trim (label ++ chr ':' :: b) = label.dropWhile isSpace ++ [chr ':'] := by
    rw [trim_append_cons (by decide), hright]
  have hne : trim (label ++ chr ':' :: b) ≠ [] := by simp [htrim]
  by_cases hbare : chr '@' ∈ trim (label ++ chr ':' :: b) ∨ chr ' ' ∉ trim (label ++ chr ':' :: b) ∧
      (trim (label ++ chr ':' :: b)).head? ≠ some (chr '"') ∧
        (trim (label ++ chr ':' :: b)).take 2 ≠ str "=?"
  · refine ⟨_, parseMailbox_bare hne hangle hbare, ?_⟩
    simpa [weight] using List.length_pos_iff.2 hne
  · have hquote : chr '"' ∉ trim (label ++ chr ':' :: b) := by
      rw [htrim, List.mem_append, not_or]
      refine ⟨fun hmem => ?_, by decide⟩
      exact label_mark h (by decide) ((List.dropWhile_suffix _).subset hmem)
    have hunquote : unquote (trim (label ++ chr ':' :: b)) = trim (label ++ chr ':' :: b) := by
      rw [unquote, trim_trim, if_pos]
      exact .inr (.inl fun hhead => hquote (List.mem_of_mem_head? hhead))
    have hname : headerText icu (trim (label ++ chr ':' :: b)) ≠ [] := by
      rw [htrim]
      exact headerText_ne_nil (by decide) (by decide) (by decide) _
    refine ⟨⟨headerText icu (trim (label ++ chr ':' :: b)), []⟩, ?_, ?_⟩
    · rw [parseMailbox, if_neg hne, rfind_eq_none fun hmem => hangle (mem_of_mem_trim hmem),
        if_neg hbare, hunquote]
      dsimp only
      rw [if_neg fun hnil => hname hnil.2, if_neg hname]
    · simpa [weight] using List.length_pos_iff.2 hname

/-- With its label in front a group weighs more. -/
theorem weight_label {label members : Bytes} (hlabel : ∀ c ∈ label, isPlainByte c = true)
    (h : AddressFirst members) : weight (parseMembers icu members) <
      weight (parseMembers icu (label ++ chr ':' :: members)) := by
  have hcolon : Passes (chr ',') {} (label ++ [chr ':']) (label ++ [chr ':']) {} := by
    refine .plain fun c hc => ?_
    rcases List.mem_append.1 hc with hc | hc
    · exact ⟨(plainByte (hlabel c hc)).1, (plainByte (hlabel c hc)).2.1⟩
    · rw [List.mem_singleton.1 hc]
      decide
  have hfront (s : Bytes) : label ++ chr ':' :: s = (label ++ [chr ':']) ++ s := by simp
  rcases h with hcfws | ⟨a, rest, rfl, ⟨hat, hplain⟩, hrest⟩
  · obtain ⟨kept, hkept, hblank⟩ := @Cfws.passes _ hcfws (chr ',') (by decide)
    obtain ⟨mb, hmb, hpos⟩ := @parseMailbox_label icu _ hlabel _ hblank
    have hnone : parseMailbox icu kept = none := by
      rw [parseMailbox, trim_eq_nil.2 hblank]
      rfl
    rw [hfront, parseMembers, hkept.split.1, parseMembers, (hcolon.append hkept).split.1, ← hfront,
      List.filterMap_cons, hnone, List.filterMap_cons, hmb]
    exact hpos
  · have hpasses : Passes (chr ',') {} a a {} := by
      refine .plain fun c hc => ?_
      rcases hplain c hc with hc | rfl
      · exact ⟨(plainByte hc).1, (plainByte hc).2.1⟩
      · decide
    have hangle : chr '<' ∉ a := fun hmem => by
      rcases hplain _ hmem with hc | hc
      · exact absurd hc (by decide)
      · exact absurd hc (by decide)
    have hangle' : chr '<' ∉ label ++ chr ':' :: a := by
      simp only [List.mem_append, List.mem_cons, not_or]
      exact ⟨label_mark hlabel (by decide), by decide, hangle⟩
    have hone : parseMembers icu a = [⟨[], trim a⟩] := by
      rw [parseMembers, hpasses.split.1, List.filterMap_cons, parseMailbox_address hat hangle]
      rfl
    have hlong : parseMembers icu (label ++ chr ':' :: a) = [⟨[], trim (label ++ chr ':' :: a)⟩] := by
      rw [parseMembers, hfront, (hcolon.append hpasses).split.1, ← hfront, List.filterMap_cons,
        parseMailbox_address (by simp [hat]) hangle']
      rfl
    have hlength : (trim a).length < (trim (label ++ chr ':' :: a)).length := by
      rw [trim_append_cons (by decide), ← trim_trimRight a]
      have hle := length_trim_le (trimRight a)
      simp only [List.length_append, List.length_cons]
      omega
    have hsettled : Settled (label ++ chr ':' :: a) := hfront a ▸ (hcolon.append hpasses).split.2
    rcases hrest with rfl | ⟨r, rfl⟩
    · rw [List.append_nil, hone, hlong]
      simpa [weight] using hlength
    · rw [parseMembers_comma hpasses.split.2, hone, ← List.cons_append, ← List.append_assoc,
        parseMembers_comma hsettled, hlong, weight_append, weight_append]
      simpa [weight] using hlength

theorem listReads_weight {b : Bool} {es : List Element}
    (hgroups : ∀ e ∈ es, WellFormedElement e ∧ (e.isGroup → AddressFirst e.members)) :
    weight (es.flatMap fun e => parseMembers icu e.members) ≤ weight (listReads icu b es) ∧
      (weight (es.flatMap fun e => parseMembers icu e.members) = weight (listReads icu b es) →
        (b = true → ∀ e ∈ es, e.isGroup = false) ∧ GroupsFirst es) := by
  induction es generalizing b with
  | nil => cases b <;> exact ⟨Nat.le_refl _, fun _ => ⟨by simp, List.Pairwise.nil⟩⟩
  | cons e es ih =>
    rw [List.forall_mem_cons] at hgroups
    obtain ⟨⟨he, haddress⟩, hes⟩ := hgroups
    cases he with
    | @mailbox m hm =>
      obtain ⟨hle, heq⟩ := @ih true hes
      have hreads : listReads icu b (.mailbox m :: es) =
          parseMembers icu m ++ listReads icu true es := by cases b <;> rfl
      rw [hreads, List.flatMap_cons, weight_append, weight_append]
      refine ⟨Nat.add_le_add_left hle _, fun h => ?_⟩
      obtain ⟨hnone, hfirst⟩ := heq (Nat.add_left_cancel h)
      have hall := hnone rfl
      refine ⟨fun _ => List.forall_mem_cons.2 ⟨rfl, hall⟩, List.pairwise_cons.2 ⟨?_, hfirst⟩⟩
      intro e he hgroup
      rw [hall e he] at hgroup
      cases hgroup
    | @group label members tail hlabel hmembers htail =>
      obtain ⟨hle, heq⟩ := @ih false hes
      rw [List.flatMap_cons, weight_append]
      cases b with
      | false =>
        rw [listReads, weight_append]
        refine ⟨Nat.add_le_add_left hle _, fun h => ⟨by simp, ?_⟩⟩
        exact List.pairwise_cons.2 ⟨fun _ _ _ => rfl, (heq (Nat.add_left_cancel h)).2⟩
      | true =>
        have hlt : weight (parseMembers icu (Element.group label members tail).members) <
            weight (parseMembers icu (label ++ chr ':' :: members)) :=
          weight_label hlabel (haddress rfl)
        rw [listReads, weight_append]
        exact ⟨by omega, fun h => by omega⟩

/-- **Groups.** Where no mailbox is cut at a semicolon or leaves something open, a list is flattened
    if every group stands before every mailbox, and, as far as its groups are empty or begin with a
    bare address, only then. -/
theorem groups_flattened_iff {es : List Element} (hes : ∀ e ∈ es, WellFormedElement e)
    (hwhole : ∀ e ∈ es, Whole e.members) :
    (GroupsFirst es → Flattened icu es) ∧
      ((∀ e ∈ es, e.isGroup → AddressFirst e.members) → Flattened icu es → GroupsFirst es) := by
  have hparts : (es.flatMap fun e => parseAddressList icu e.members) =
      es.flatMap fun e => parseMembers icu e.members :=
    List.flatMap_congr fun e he => parse_members (hes e he) (hwhole e he)
  have hflattened : Flattened icu es ↔
      listReads icu false es = es.flatMap fun e => parseMembers icu e.members := by
    rw [Flattened, parse_list hes hwhole, hparts]
  rw [hflattened]
  refine ⟨listReads_groupsFirst, fun haddress heq => ?_⟩
  have hweight := @listReads_weight icu false es fun e he => ⟨hes e he, haddress e he⟩
  exact (hweight.2 (congrArg weight heq.symm)).2

end

theorem words_of_plain {s : Bytes} (h : ∀ c ∈ s, isPlainByte c = true) : Words s := by
  induction s with
  | nil => exact .nil
  | cons c s ih =>
    rw [List.forall_mem_cons] at h
    exact .octet h.1 (ih h.2)

theorem isMailbox_plain {name domain : Bytes} (hname : ∀ c ∈ name, isPlainByte c = true)
    (hdomain : ∀ c ∈ domain, isPlainByte c = true) : IsMailbox (name ++ chr '@' :: domain) :=
  .address (words_of_plain hname) (.words (words_of_plain hdomain))

/-- `Team: b@y, "C." <c@z>;, d@[IPv6:::1]` -/
def teamFirst : List Element :=
  [.group (str "Team") (str " b@y, \"C.\" <c@z>") [], .mailbox (str " d@[IPv6:::1]")]

set_option maxRecDepth 20000 in
theorem teamFirst_wellFormed : ∀ e ∈ teamFirst, WellFormedElement e := by
  have hb : IsMailbox (str " b@y") :=
    @isMailbox_plain (str " b") (str "y") (by decide) (by decide)
  have hc : IsMailbox (str " \"C.\" <c@z>") := by
    have hquoted : QuotedBody (str "C.") :=
      .octet (by decide) (by decide) (.octet (by decide) (by decide) .nil)
    have hspace : Words [chr ' '] := words_of_plain (by decide)
    have hphrase : Words (chr ' ' :: (chr '"' :: (str "C." ++ [chr '"']) ++ [chr ' '])) :=
      .octet (by decide) (.quoted hquoted hspace)
    have hname : Words (str "c") := words_of_plain (by decide)
    have hdomain : Words (str "z") := words_of_plain (by decide)
    exact .angle hphrase hname (.words hdomain) .nil
  have hd : IsMailbox (str " d@[IPv6:::1]") := by
    have hname : Words (str " d") := words_of_plain (by decide)
    have htext : LiteralText (str "IPv6:::1") := by
      unfold LiteralText
      decide
    exact .address hname (.literal .nil htext .nil)
  intro e he
  rcases List.mem_pair.1 he with rfl | rfl
  · exact .group (by decide) (.mailboxes hb (List.forall_mem_singleton.2 hc)) .nil
  · exact .mailbox hd

theorem teamFirst_flattened : Flattened (fun _ _ => none) teamFirst := by
  have hwhole : ∀ e ∈ teamFirst, Whole e.members := by
    intro e he
    refine ⟨e.members, ?_, ?_⟩
    · rcases List.mem_pair.1 he with rfl | rfl <;> decide
    · rcases List.mem_pair.1 he with rfl | rfl <;> decide +kernel
  have hfirst : GroupsFirst teamFirst := by
    unfold GroupsFirst
    decide
  exact (groups_flattened_iff teamFirst_wellFormed hwhole).1 hfirst

/-- `alice@x, Team: b@y;` -/
def teamLast : List Element := [.mailbox (str "alice@x"), .group (str " Team") (str " b@y") []]

set_option maxRecDepth 20000 in
theorem teamLast_wellFormed : ∀ e ∈ teamLast, WellFormedElement e := by
  have hb : IsMailbox (str " b@y") :=
    @isMailbox_plain (str " b") (str "y") (by decide) (by decide)
  intro e he
  rcases List.mem_pair.1 he with rfl | rfl
  · exact .mailbox (@isMailbox_plain (str "alice") (str "x") (by decide)
      (by decide))
  · exact .group (by decide) (.mailboxes hb (List.forall_mem_nil _)) .nil

/-- The label of a group behind a mailbox ends up in an address. -/
theorem teamLast_not_flattened : (∀ e ∈ teamLast, WellFormedElement e) ∧
    ¬ Flattened (fun _ _ => none) teamLast ∧
      parseAddressList (fun _ _ => none) (listText teamLast) =
        [⟨[], str "alice@x"⟩, ⟨[], str "Team: b@y"⟩] := by
  refine ⟨teamLast_wellFormed, ?_, by decide +kernel⟩
  unfold Flattened
  decide +kernel

end Mime
end Imap2Pst
