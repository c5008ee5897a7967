import Imap2Pst.Imap.Fetch
import Imap2Pst.Imap.InternalDate

/-!
# Imap.Metas

A listing as a server sends it: one FETCH line for each message, with its UID, flags, date and size
in any order.

* `parseFlags_flagList` — a flag list is read flag by flag.
* `metaFold_perm`       — the order of the items of a line does not matter.
* `metas_round_trip`    — the listing is read as it was sent.
-/

namespace Imap2Pst
namespace Imap

open CxxStd

/-! ## Flags -/

inductive SystemFlag where
  | seen | answered | flagged | deleted | draft | recent
  deriving DecidableEq, Repr

namespace SystemFlag

def text : SystemFlag → Bytes
  | seen => str "\\Seen"
  | answered => str "\\Answered"
  | flagged => str "\\Flagged"
  | deleted => str "\\Deleted"
  | draft => str "\\Draft"
  | recent => str "\\Recent"

def bit : SystemFlag → UInt32
  | seen => kFlagSeen
  | answered => kFlagAnswered
  | flagged => kFlagFlagged
  | deleted => kFlagDeleted
  | draft => kFlagDraft
  | recent => kFlagRecent

end SystemFlag

/-- An octet of an atom: printable, and none of `(){ %*"\]`. -/
def isKeywordChar (c : Byte) : Bool := 33 ≤ c && c ≤ 126 && c ∉ str "()\x7b%*\"\\]"

/-- A keyword is an atom. -/
structure Keyword where
  text : Bytes
  nonempty : text ≠ []
  atom : ∀ c ∈ text, isKeywordChar c = true

inductive FlagName where
  | system (f : SystemFlag)
  | keyword (k : Keyword)

namespace FlagName

def text : FlagName → Bytes
  | system f => f.text
  | keyword k => k.text

def bit : FlagName → UInt32
  | system f => f.bit
  | keyword _ => 0

def keywordText? : FlagName → Option Bytes
  | system _ => none
  | keyword k => some k.text

end FlagName

/-- A word of a flag list. -/
structure IsWord (w : Bytes) : Prop where
  nonempty : w ≠ []
  plain : ∀ c ∈ w, isSpace c = false ∧ c ≠ 40 ∧ c ≠ 41

theorem IsWord.isAtomChar {w : Bytes} (h : IsWord w) {c : Byte} (hc : c ∈ w) :
    isAtomChar c = true := by
  obtain ⟨hspace, hopen, hclose⟩ := h.plain c hc
  simp only [Imap.isAtomChar, Bool.not_eq_true', Bool.or_eq_false_iff, decide_eq_false_iff_not]
  refine ⟨⟨⟨⟨?_, ?_⟩, ?_⟩, hopen⟩, hclose⟩ <;> rintro rfl <;> exact absurd hspace (by decide)

theorem tokens_word {w : Bytes} (h : ∀ c ∈ w, isSpace c = false) (cur rest : Bytes) :
    tokens cur (w ++ rest) = tokens (cur ++ w) rest := by
  induction w generalizing cur with
  | nil => rw [List.nil_append, List.append_nil]
  | cons c w ih =>
    rw [List.cons_append, tokens, h c List.mem_cons_self, if_neg Bool.false_ne_true,
      ih (fun d hd => h d (List.mem_cons_of_mem _ hd)), List.append_assoc, List.singleton_append]

theorem dropWhile_of_forall_ne {c : Byte} {w : Bytes} (hne : w ≠ []) (h : ∀ d ∈ w, d ≠ c)
    (rest : Bytes) : (w ++ rest).dropWhile (· = c) = w ++ rest := by
  obtain ⟨d, w, rfl⟩ := List.exists_cons_of_ne_nil hne
  exact List.dropWhile_cons_of_neg (by simpa using h d List.mem_cons_self)

theorem stripParens_word {w opens closes : Bytes} (h : IsWord w) (hopens : ∀ c ∈ opens, c = 40)
    (hcloses : ∀ c ∈ closes, c = 41) : stripParens (opens ++ (w ++ closes)) = w := by
  have hreverse : w.reverse ≠ [] := by simpa using h.nonempty
  have hfirst := dropWhile_of_forall_ne h.nonempty (fun d hd => (h.plain d hd).2.1) closes
  have hlast := dropWhile_of_forall_ne hreverse
    (fun d hd => (h.plain d (List.mem_reverse.1 hd)).2.2) []
  rw [List.append_nil] at hlast
  rw [stripParens, List.dropWhile_append_of_pos fun c hc => decide_eq_true (hopens c hc), hfirst,
    List.reverse_append,
    List.dropWhile_append_of_pos fun c hc => decide_eq_true (hcloses c (List.mem_reverse.1 hc)),
    hlast, List.reverse_reverse]

/-- The words of a flag list, up to the parentheses at its ends. -/
theorem tokens_spaced {w : Bytes} {rest : List Bytes} {opens : Bytes} (hopens : ∀ c ∈ opens, c = 40)
    (h : ∀ x ∈ w :: rest, IsWord x) :
    (tokens opens (FetchItem.spaced (w :: rest) ++ [41])).map stripParens = w :: rest := by
  induction rest generalizing w opens with
  | nil =>
    have hw := h w List.mem_cons_self
    have hclose : isSpace 41 = false := by decide
    have hstrip := @stripParens_word w opens [41] hw hopens (by simp)
    rw [FetchItem.spaced, tokens_word fun c hc => (hw.plain c hc).1, tokens, hclose,
      if_neg Bool.false_ne_true, tokens, if_neg (by simp)]
    simpa using hstrip
  | cons x rest ih =>
    have hw := h w List.mem_cons_self
    have hspace : isSpace 32 = true := by decide
    have hne : opens ++ w ≠ [] := List.append_ne_nil_of_right_ne_nil _ hw.nonempty
    have hstrip := @stripParens_word w opens [] hw hopens (by simp)
    have htail := @ih x [] (by simp) fun y hy => h y (List.mem_cons_of_mem _ hy)
    rw [List.append_nil] at hstrip
    rw [FetchItem.spaced, List.append_assoc, tokens_word fun c hc => (hw.plain c hc).1,
      List.cons_append, tokens, hspace, if_pos rfl, if_neg hne, List.map_cons, htail, hstrip]
    exact List.cons_ne_nil x rest

/-- The words between the parentheses are the flags. -/
theorem words_flagList {names : List Bytes} (h : ∀ x ∈ names, IsWord x) :
    ((tokens [] (FetchItem.flagList names)).map stripParens).filter (· ≠ []) = names := by
  have hopen : isSpace 40 = false := by decide
  cases names with
  | nil => decide
  | cons w rest =>
    have htokens := @tokens_spaced w rest [40] (by simp) h
    rw [FetchItem.flagList, List.cons_append, tokens, hopen, if_neg Bool.false_ne_true,
      List.nil_append, htokens, List.filter_eq_self]
    exact fun x hx => decide_eq_true (h x hx).nonempty

theorem isWord_text (f : FlagName) : IsWord f.text := by
  cases f with
  | system f =>
    have hall : f.text.all (fun c => !isSpace c && c ≠ 40 && c ≠ 41) = true := by
      cases f <;> decide
    refine ⟨by cases f <;> decide, fun c hc => ?_⟩
    simpa [and_assoc] using List.all_eq_true.1 hall c hc
  | keyword k =>
    have hall : ∀ c : Byte, isKeywordChar c = true → isSpace c = false ∧ c ≠ 40 ∧ c ≠ 41 :=
      forall_byte (by decide +kernel)
    exact ⟨k.nonempty, fun c hc => hall c (k.atom c hc)⟩

/-- An atom has no backslash, so it is not a system flag. -/
theorem systemFlag_keyword (k : Keyword) : systemFlag k.text = none := by
  obtain ⟨c, cs, htext⟩ := List.exists_cons_of_ne_nil k.nonempty
  have hc : toLower c ≠ 92 := by
    have hall : ∀ c : Byte, isKeywordChar c = true → toLower c ≠ 92 :=
      forall_byte (by decide +kernel)
    exact hall c (k.atom c (htext ▸ List.mem_cons_self))
  have hne {name : Bytes} (hname : name.head? = some 92) : lower k.text ≠ name := by
    rintro rfl
    rw [htext] at hname
    exact hc (Option.some.inj hname)
  unfold systemFlag
  dsimp only
  rw [if_neg (hne (by decide)), if_neg (hne (by decide)), if_neg (hne (by decide)),
    if_neg (hne (by decide)), if_neg (hne (by decide)), if_neg (hne (by decide))]

theorem systemFlag_system (s : SystemFlag) : systemFlag s.text = some s.bit := by
  cases s <;> decide

/-- The bits of the system flags among some flags. -/
def flagBits (flags : List FlagName) : UInt32 :=
  flags.foldl (fun bits f => bits ||| f.bit) kFlagNone

/-- A flag list is read flag by flag. -/
theorem parseFlags_flagList (flags : List FlagName) :
    parseFlags (FetchItem.flagList (flags.map FlagName.text)) =
      (flagBits flags, flags.filterMap FlagName.keywordText?) := by
  have hwords : ∀ w ∈ flags.map FlagName.text, IsWord w := by
    intro w hw
    obtain ⟨f, -, rfl⟩ := List.mem_map.1 hw
    exact isWord_text f
  have hbit (f : FlagName) : (systemFlag f.text).getD 0 = f.bit := by
    cases f with
    | system s => rw [FlagName.text, systemFlag_system]; rfl
    | keyword k => rw [FlagName.text, systemFlag_keyword]; rfl
  rw [parseFlags, words_flagList hwords, List.foldl_map, flagBits]
  simp only [hbit]
  congr 1
  clear hwords
  induction flags with
  | nil => rfl
  | cons f flags ih =>
    rw [List.map_cons]
    cases f with
    | system s =>
      rw [List.filter_cons_of_neg (by simp [FlagName.text, systemFlag_system]), ih]
      rfl
    | keyword k =>
      rw [List.filter_cons_of_pos (by simp [FlagName.text, systemFlag_keyword]), ih]
      rfl

/-! ## Items -/

/-- What one item sets. -/
def applyItem : Bool × MessageMeta → FetchItem → Bool × MessageMeta
  | (_, info), .uid n => (true, { info with uid := n })
  | (seen, info), .size n => (seen, { info with size := n })
  | (seen, info), .flags names =>
    (seen, { info with
      flags := (parseFlags (FetchItem.flagList names)).1
      keywords := info.keywords ++ (parseFlags (FetchItem.flagList names)).2 })
  | (seen, info), .internalDate value => (seen, { info with internalDate := parseInternalDate value })
  | acc, .body _ => acc

theorem metaFold_eq (items : List FetchItem) (acc : Bool × MessageMeta) :
    metaFold acc items = items.foldl applyItem acc := by
  induction items generalizing acc with
  | nil => rfl
  | cons item items ih =>
    obtain ⟨seen, info⟩ := acc
    cases item <;> exact ih _

def FetchItem.kind : FetchItem → Nat
  | uid _ => 0
  | flags _ => 1
  | internalDate _ => 2
  | size _ => 3
  | body _ => 4

theorem applyItem_comm {a b : FetchItem} (h : a.kind ≠ b.kind) (acc : Bool × MessageMeta) :
    applyItem (applyItem acc a) b = applyItem (applyItem acc b) a := by
  obtain ⟨seen, info⟩ := acc
  cases a <;> cases b <;> first | rfl | exact absurd rfl h

/-- Items of different kinds may come in any order. -/
theorem metaFold_perm {items items' : List FetchItem} (h : items.Perm items')
    (hkinds : (items.map FetchItem.kind).Nodup) (acc : Bool × MessageMeta) :
    metaFold acc items = metaFold acc items' := by
  rw [metaFold_eq, metaFold_eq]
  refine h.foldl_eq' (fun a ha b hb acc => ?_) acc
  by_cases heq : a = b
  · rw [heq]
  · exact applyItem_comm (fun hkind => heq (List.inj_on_of_nodup_map hkinds ha hb hkind)) acc

/-! ## Listings -/

/-- A message of a listing, and the order in which its items are sent. -/
structure SentMeta where
  seq : Nat
  uid : UInt32
  size : UInt32
  flags : List FlagName
  date : InternalDate
  items : List FetchItem
  order : items.Perm
    [.uid uid, .flags (flags.map FlagName.text), .internalDate date.text, .size size]

namespace SentMeta

def line (m : SentMeta) : FetchLine := { seq := m.seq, items := m.items }

/-- The meta data sent. -/
def info (m : SentMeta) : MessageMeta where
  uid := m.uid
  flags := flagBits m.flags
  keywords := m.flags.filterMap FlagName.keywordText?
  internalDate := m.date.unix
  size := m.size

theorem wellFormed (m : SentMeta) : m.line.WellFormed := by
  intro item hitem
  have hmem := m.order.mem_iff.1 hitem
  simp only [List.mem_cons, List.not_mem_nil, or_false] at hmem
  rcases hmem with rfl | rfl | rfl | rfl
  · trivial
  · intro name hname c hc
    obtain ⟨f, -, rfl⟩ := List.mem_map.1 hname
    exact (isWord_text f).isAtomChar hc
  · exact fun c hc => (m.date.plain_of_mem_text c hc).2
  · trivial

theorem no_body (m : SentMeta) : ∀ item ∈ m.line.items, ∀ o, item ≠ .body o := by
  rintro item hitem o rfl
  have hmem := m.order.mem_iff.1 hitem
  simp at hmem

theorem metaOf_line (m : SentMeta) : metaOf m.line = some m.info := by
  have hkinds : (m.items.map FetchItem.kind).Nodup := by
    rw [(m.order.map FetchItem.kind).nodup_iff]
    have hnodup : [0, 1, 2, 3].Nodup := by decide
    exact hnodup
  rw [metaOf, line, metaFold_perm m.order hkinds]
  simp only [metaFold, parseFlags_flagList, m.date.parseInternalDate_text, List.nil_append]
  rfl

end SentMeta

/-- A listing is read as it was sent: every message, in order. -/
theorem metas_round_trip {metas : List SentMeta}
    (hlen : (fetchResponse (metas.map SentMeta.line)).length < 2 ^ 63) :
    parseFetchResponse (fetchResponse (metas.map SentMeta.line)) = .ok (metas.map SentMeta.info) := by
  have hwf : ∀ l ∈ metas.map SentMeta.line, l.WellFormed := by
    intro l hl
    obtain ⟨m, -, rfl⟩ := List.mem_map.1 hl
    exact m.wellFormed
  have hbody : ∀ l ∈ metas.map SentMeta.line, ∀ item ∈ l.items, ∀ o, item ≠ .body o := by
    intro l hl
    obtain ⟨m, -, rfl⟩ := List.mem_map.1 hl
    exact m.no_body
  rw [parseFetchResponse_respond hwf hbody hlen, List.filterMap_map]
  have hmetas : metaOf ∘ SentMeta.line = some ∘ SentMeta.info := funext SentMeta.metaOf_line
  rw [hmetas, ← List.filterMap_map, List.filterMap_some]

/-- UID 7 of 4286 octets, seen and marked as junk, of 17 July 1996, 02:44:25 in the zone -0700. -/
def junkMeta : SentMeta where
  seq := 12
  uid := 7
  size := 4286
  flags := [.system .seen, .keyword ⟨str "$Junk", by decide, List.all_eq_true.1 (by decide)⟩]
  date := {
    year := 1996, month := 6, day := 17, hour := 2, minute := 44, second := 25
    west := true, zoneHour := 7, zoneMinute := 0
    year_range := by decide
    month_lt := by decide
    day_range := by decide
    hour_lt := by decide
    minute_lt := by decide
    second_le := by decide
    zoneMinute_lt := by decide
    zone_le := by decide }
  items := [.internalDate (str "17-Jul-1996 02:44:25 -0700"), .size 4286,
    .flags [str "\\Seen", str "$Junk"], .uid 7]
  order := by decide

theorem metas_round_trip_junk :
    parseFetchResponse (fetchResponse [junkMeta.line]) =
      .ok [MessageMeta.mk 7 kFlagSeen [str "$Junk"] 837596665 4286] := by
  have hinfo : junkMeta.info = MessageMeta.mk 7 kFlagSeen [str "$Junk"] 837596665 4286 := by
    decide +kernel
  have hread := @metas_round_trip [junkMeta] (by decide +kernel)
  rw [List.map_singleton, List.map_singleton, hinfo] at hread
  exact hread

end Imap
end Imap2Pst
