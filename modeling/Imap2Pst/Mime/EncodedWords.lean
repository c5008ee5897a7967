import Imap2Pst.Mime.Headers
import Imap2Pst.Std.Text

/-!
# Mime.EncodedWords

The encoded words of RFC 2047 in a text, and what `decodeEncodedWords` makes of the text around
them.

* `EncodedWord`            — `=?charset?encoding?text?=`.
* `WordText`               — plain segments with encoded words between them.
* `decodeEncodedWords_iff` — the texts whose plain segments are left alone.
-/

namespace Imap2Pst
namespace Mime

open CxxStd

/-! ## Words -/

/-- An octet of a charset's name: printable, and not one of the specials of RFC 2047. -/
def isTokenByte (c : Byte) : Bool := 33 ≤ c && c ≤ 126 && c ∉ str "()<>@,;:\"/[]?.="

structure EncodedWord where
  charset : Bytes
  encoding : Byte
  encodedText : Bytes
  charset_nonempty : charset ≠ []
  charset_token : ∀ c ∈ charset, isTokenByte c = true
  encoding_known : toUpper encoding = chr 'B' ∨ toUpper encoding = chr 'Q'
  text_nonempty : encodedText ≠ []
  text_printable : ∀ c ∈ encodedText, 33 ≤ c ∧ c ≤ 126 ∧ c ≠ chr '?'

namespace EncodedWord

variable (w : EncodedWord)

def text : Bytes :=
  str "=?" ++ (w.charset ++ chr '?' :: w.encoding :: chr '?' :: (w.encodedText ++ str "?="))

/-- What the word stands for; a language may follow the charset behind a `'*'`. -/
def decoded (icu : Converter) : Bytes :=
  let raw :=
    if toUpper w.encoding = chr 'B' then decodeBase64 w.encodedText
    else decodeQuotedPrintable true w.encodedText
  toUtf8 icu raw (w.charset.takeWhile (· ≠ chr '*'))

end EncodedWord

/-- The word that the loop reads at the front of a text. -/
def wordAt (icu : Converter) (s : Bytes) : Option (Bytes × Nat) :=
  if isEncodedWordStart s then decodeOneWord icu s else none

section

variable {icu : Converter}

theorem EncodedWord.wordAt_text (w : EncodedWord) (rest : Bytes) :
    wordAt icu (w.text ++ rest) = some (w.decoded icu, w.text.length) := by
  have hcharset : chr '?' ∉ w.charset := fun h => absurd (w.charset_token _ h) (by decide)
  have hencoding : chr '?' ∉ [w.encoding] := by
    intro h
    have hknown := w.encoding_known
    rw [← List.mem_singleton.1 h] at hknown
    exact absurd hknown (by decide)
  have htext : chr '?' ∉ w.encodedText := fun h => (w.text_printable _ h).2.2 rfl
  have hsplit : w.text ++ rest = str "=?" ++ (w.charset ++ chr '?' :: ([w.encoding] ++
      chr '?' :: (w.encodedText ++ (str "?=" ++ rest)))) := by
    simp [text]
  have hstart : isEncodedWordStart (w.text ++ rest) = true := by
    rw [hsplit]
    exact decide_eq_true (List.prefix_append _ _)
  have hlength : w.text.length = 2 + w.charset.length + 1 + 1 + 1 + w.encodedText.length + 2 := by
    simp only [text, List.length_append, List.length_cons]
    have hmarks : (str "=?").length = 2 ∧ (str "?=").length = 2 := by decide
    omega
  -- the text behind each of the four marks
  generalize w.text ++ rest = s at hsplit hstart
  have hfront : s.drop 2 = w.charset ++ chr '?' :: ([w.encoding] ++
      chr '?' :: (w.encodedText ++ (str "?=" ++ rest))) := by
    rw [hsplit]
    rfl
  have hmark := drop_of_append (hfront.trans (List.append_cons _ _ _))
  rw [List.length_append, List.length_singleton, ← Nat.add_assoc] at hmark
  have hbody := drop_of_append (hmark.trans (List.append_cons _ _ _))
  rw [List.length_append, List.length_singleton, List.length_singleton, ← Nat.add_assoc] at hbody
  have hend : findSub s (str "?=") (2 + w.charset.length + 1 + 1 + 1) =
      some (w.encodedText.length + (2 + w.charset.length + 1 + 1 + 1)) := by
    rw [findSub, hbody]
    exact congrArg _ (findPat_behind rest htext)
  have hcode : s.getD (2 + w.charset.length + 1) 0 = w.encoding := by
    rw [List.getD_eq_getElem?_getD, ← Nat.add_zero (2 + w.charset.length + 1),
      ← List.getElem?_drop, hmark]
    rfl
  rw [wordAt, if_pos hstart, decodeOneWord, find_of_append hfront hcharset, Option.bind_eq_bind,
    Option.bind_some, find_of_append hmark hencoding, Option.bind_eq_bind, Option.bind_some,
    List.length_singleton, if_neg (not_not.2 (by omega)), hend]
  dsimp only
  rw [Option.bind_some]
  have hcharset' : slice s 2 (2 + w.charset.length - 2) = w.charset := by
    rw [Nat.add_sub_cancel_left]
    exact slice_of_append hfront
  have htext' : slice s (2 + w.charset.length + 1 + 1 + 1)
      (w.encodedText.length + (2 + w.charset.length + 1 + 1 + 1) -
        (2 + w.charset.length + 1 + 1) - 1) = w.encodedText := by
    have hcount : w.encodedText.length + (2 + w.charset.length + 1 + 1 + 1) -
        (2 + w.charset.length + 1 + 1) - 1 = w.encodedText.length := by omega
    rw [hcount]
    exact slice_of_append hbody
  have hconsumed : w.encodedText.length + (2 + w.charset.length + 1 + 1 + 1) + 2 =
      w.text.length := by omega
  simp only [hcharset', htext', hcode, hconsumed, take_find, decoded]
  rcases w.encoding_known with hb | hq
  · rw [if_pos hb, if_pos hb]
  · rw [if_neg (by rw [hq]; decide), if_pos hq, if_neg (by rw [hq]; decide)]

/-! ## Texts -/

/-- The words of a text, each with the plain segment behind it. -/
abbrev Behind := List (EncodedWord × Bytes)

def behindText : Behind → Bytes
  | [] => []
  | (w, p) :: ws => w.text ++ (p ++ behindText ws)

/-- White space between two words is not part of the text. -/
def keptSegment (p : Bytes) (ws : Behind) : Bytes := if Blank p ∧ ¬ ws.isEmpty then [] else p

def keptBehind : Behind → Behind
  | [] => []
  | (w, p) :: ws => (w, keptSegment p ws) :: keptBehind ws

/-- No word is read inside a segment that `rest` follows. -/
def ClearSegment (icu : Converter) (p rest : Bytes) : Prop :=
  ∀ k < p.length, wordAt icu (p.drop k ++ rest) = none

def ClearBehind (icu : Converter) : Behind → Prop
  | [] => True
  | (_, p) :: ws => ClearSegment icu p (behindText ws) ∧ ClearBehind icu ws

structure WordText where
  first : Bytes
  words : Behind

namespace WordText

variable (t : WordText)

def text : Bytes := t.first ++ behindText t.words

/-- The segments that are part of the text. -/
def kept : List Bytes := t.first :: (keptBehind t.words).map Prod.snd

/-- The plain segments as they are, and the words decoded. -/
def expected (icu : Converter) : Bytes :=
  t.first ++ (keptBehind t.words).flatMap fun x => x.1.decoded icu ++ x.2

/-- No word is read but those of the text. -/
def Clear (icu : Converter) : Prop :=
  ClearSegment icu t.first (behindText t.words) ∧ ClearBehind icu t.words

end WordText

/-! ## The loop -/

/-- A segment with each octet of white space turned into a space. -/
def spaced (p : Bytes) : Bytes := p.map fun c => if isSpace c then chr ' ' else c

theorem spaced_blank {p : Bytes} (h : Blank p) : spaced p = List.replicate p.length (chr ' ') := by
  refine List.eq_replicate_iff.2 ⟨List.length_map _, fun c hc => ?_⟩
  obtain ⟨d, hd, rfl⟩ := List.mem_map.1 hc
  exact if_pos (h d hd)

theorem spaced_eq_iff {p : Bytes} : spaced p = p ↔ ∀ c ∈ p, isSpace c = true → c = chr ' ' := by
  have hmap : spaced p = p ↔ p.map (fun c => if isSpace c then chr ' ' else c) = p.map id := by
    rw [List.map_id]
    rfl
  rw [hmap, List.map_inj_left]
  refine forall₂_congr fun c _ => ?_
  by_cases hc : isSpace c = true
  · simp [hc, eq_comm]
  · simp [hc]

theorem ClearSegment.tail {c : Byte} {p rest : Bytes} (h : ClearSegment icu (c :: p) rest) :
    wordAt icu (c :: (p ++ rest)) = none ∧ ClearSegment icu p rest :=
  ⟨h 0 (Nat.zero_lt_succ _), fun k hk => h (k + 1) (Nat.succ_lt_succ hk)⟩

/-- The octets of a word are passed over. -/
theorem decode_skip (a rest : Bytes) (pending : Nat) (encoded : Bool) :
    decodeWordsFrom icu a.length pending encoded (a ++ rest) =
      decodeWordsFrom icu 0 pending encoded rest := by
  induction a with
  | nil => rfl
  | cons c a ih =>
    rw [List.cons_append, List.length_cons, decodeWordsFrom]
    exact ih

theorem decode_word (w : EncodedWord) (rest : Bytes) (pending : Nat) (encoded : Bool) :
    decodeWordsFrom icu 0 pending encoded (w.text ++ rest) =
      (if encoded then [] else List.replicate pending (chr ' ')) ++ w.decoded icu ++
        decodeWordsFrom icu 0 0 true rest := by
  have hword := @EncodedWord.wordAt_text icu w rest
  obtain ⟨c, s, htext⟩ : ∃ c s, w.text = c :: s := ⟨_, _, rfl⟩
  rw [htext, wordAt, List.cons_append] at hword
  rw [htext, List.cons_append, decodeWordsFrom, hword]
  dsimp only
  rw [List.length_cons, Nat.add_sub_cancel, decode_skip]

theorem decode_octet {c : Byte} {s : Bytes} (h : wordAt icu (c :: s) = none) (pending : Nat)
    (encoded : Bool) : decodeWordsFrom icu 0 pending encoded (c :: s) =
      if isSpace c then decodeWordsFrom icu 0 (pending + 1) encoded s
      else List.replicate pending (chr ' ') ++ c :: decodeWordsFrom icu 0 0 false s := by
  rw [wordAt] at h
  rw [decodeWordsFrom, h]

/-- White space is held back, -/
theorem decode_blank {p rest : Bytes} (hblank : Blank p) (h : ClearSegment icu p rest)
    (pending : Nat) (encoded : Bool) : decodeWordsFrom icu 0 pending encoded (p ++ rest) =
      decodeWordsFrom icu 0 (pending + p.length) encoded rest := by
  induction p generalizing pending with
  | nil => rfl
  | cons c p ih =>
    obtain ⟨hc, hp⟩ := h.tail
    rw [blank_cons] at hblank
    rw [List.cons_append, decode_octet hc, if_pos hblank.1, ih hblank.2 hp, List.length_cons]
    congr 1
    omega

/-- and comes out before what follows it. -/
theorem decode_plain {p rest : Bytes} (hblank : ¬ Blank p) (h : ClearSegment icu p rest)
    (pending : Nat) (encoded : Bool) : ∃ out held,
      decodeWordsFrom icu 0 pending encoded (p ++ rest) =
        out ++ decodeWordsFrom icu 0 held false rest ∧
      out ++ List.replicate held (chr ' ') = List.replicate pending (chr ' ') ++ spaced p := by
  induction p generalizing pending encoded with
  | nil => exact absurd blank_nil hblank
  | cons c p ih =>
    obtain ⟨hc, hp⟩ := h.tail
    rw [List.cons_append, decode_octet hc]
    by_cases hspace : isSpace c = true
    · obtain ⟨out, held, hout, hspaced⟩ :=
        ih (fun hb => hblank (blank_cons.2 ⟨hspace, hb⟩)) hp (pending + 1) encoded
      refine ⟨out, held, by rw [if_pos hspace, hout], ?_⟩
      have hfirst : spaced (c :: p) = chr ' ' :: spaced p := by
        rw [spaced, List.map_cons, if_pos hspace, spaced]
      rw [hspaced, hfirst, List.replicate_succ', List.append_assoc, List.singleton_append]
    · have hspaced : spaced (c :: p) = c :: spaced p := by
        rw [spaced, List.map_cons, if_neg hspace, spaced]
      rw [if_neg hspace, hspaced]
      by_cases hb : Blank p
      · refine ⟨List.replicate pending (chr ' ') ++ [c], p.length, ?_, ?_⟩
        · rw [decode_blank hb hp, Nat.zero_add, List.append_assoc, List.singleton_append]
        · rw [List.append_assoc, List.singleton_append, spaced_blank hb]
      · obtain ⟨out, held, hout, heq⟩ := ih hb hp 0 false
        refine ⟨List.replicate pending (chr ' ') ++ c :: out, held, ?_, ?_⟩
        · rw [hout, List.append_assoc, List.cons_append]
        · rw [List.append_assoc, List.cons_append, heq]
          rfl

/-- The words behind a segment, the first of them decoded. -/
def decodeBehind (icu : Converter) : Behind → Bytes
  | [] => []
  | (w, p) :: ws => w.decoded icu ++ decodeWordsFrom icu 0 0 true (p ++ behindText ws)

/-- A segment up to the next word or the end of the text. -/
theorem decode_segment {p : Bytes} {ws : Behind} (h : ClearSegment icu p (behindText ws))
    (encoded : Bool) : decodeWordsFrom icu 0 0 encoded (p ++ behindText ws) =
      (if encoded then spaced (keptSegment p ws) else spaced p) ++ decodeBehind icu ws := by
  by_cases hb : Blank p
  · rw [decode_blank hb h, Nat.zero_add]
    cases ws with
    | nil =>
      simp [behindText, keptSegment, decodeWordsFrom, decodeBehind, spaced_blank hb]
    | cons x ws =>
      obtain ⟨w, q⟩ := x
      rw [behindText, decode_word, List.append_assoc]
      cases encoded with
      | true => simp [keptSegment, hb, spaced, decodeBehind]
      | false => simp [spaced_blank hb, decodeBehind]
  · obtain ⟨out, held, hout, heq⟩ := decode_plain hb h 0 encoded
    have hkept : keptSegment p ws = p := if_neg fun h => hb h.1
    rw [List.replicate_zero, List.nil_append] at heq
    rw [hout, hkept, ite_self, ← heq, List.append_assoc]
    cases ws with
    | nil => simp [behindText, decodeWordsFrom, decodeBehind]
    | cons x ws =>
      obtain ⟨w, q⟩ := x
      rw [behindText, decode_word, List.append_assoc]
      rfl

theorem decode_behind {p : Bytes} {ws : Behind} (hp : ClearSegment icu p (behindText ws))
    (hws : ClearBehind icu ws) : decodeWordsFrom icu 0 0 true (p ++ behindText ws) =
      spaced (keptSegment p ws) ++ (keptBehind ws).flatMap fun x => x.1.decoded icu ++ spaced x.2 := by
  induction ws generalizing p with
  | nil => rw [decode_segment hp, if_pos rfl]; rfl
  | cons x ws ih =>
    obtain ⟨w, q⟩ := x
    rw [decode_segment hp, if_pos rfl, decodeBehind, ih hws.1 hws.2, keptBehind,
      List.flatMap_cons, List.append_assoc]

/-- Every text comes out with spaces for its white space. -/
theorem decodeEncodedWords_spaced {t : WordText} (h : t.Clear icu) :
    decodeEncodedWords icu t.text =
      spaced t.first ++ (keptBehind t.words).flatMap fun x => x.1.decoded icu ++ spaced x.2 := by
  rw [decodeEncodedWords, WordText.text, decode_segment h.1, if_neg Bool.false_ne_true]
  obtain ⟨first, words⟩ := t
  cases words with
  | nil => rfl
  | cons x ws =>
    obtain ⟨w, q⟩ := x
    rw [decodeBehind, decode_behind h.2.1 h.2.2, keptBehind, List.flatMap_cons, List.append_assoc]

theorem flatMap_spaced_iff (ws : Behind) :
    (ws.flatMap fun x => x.1.decoded icu ++ spaced x.2) = (ws.flatMap fun x => x.1.decoded icu ++ x.2) ↔
      ∀ x ∈ ws, spaced x.2 = x.2 := by
  induction ws with
  | nil => simp
  | cons x ws ih =>
    rw [List.flatMap_cons, List.flatMap_cons, List.forall_mem_cons, ← ih, List.append_assoc,
      List.append_assoc, List.append_right_inj]
    constructor
    · intro h
      exact List.append_inj h (List.length_map _)
    · rintro ⟨hx, hws⟩
      rw [hx, hws]

/-- **Encoded words.** A text in which no other word is read comes out with its words decoded and
    the rest left alone, if and only if the rest has no white space but spaces. -/
theorem decodeEncodedWords_iff {t : WordText} (h : t.Clear icu) :
    decodeEncodedWords icu t.text = t.expected icu ↔
      ∀ p ∈ t.kept, ∀ c ∈ p, isSpace c = true → c = chr ' ' := by
  rw [decodeEncodedWords_spaced h, WordText.expected, WordText.kept, List.forall_mem_cons,
    List.forall_mem_map, ← spaced_eq_iff]
  have hrest : (∀ x ∈ keptBehind t.words, ∀ c ∈ x.2, isSpace c = true → c = chr ' ') ↔
      ∀ x ∈ keptBehind t.words, spaced x.2 = x.2 :=
    forall₂_congr fun x _ => spaced_eq_iff.symm
  rw [hrest, ← @flatMap_spaced_iff icu]
  constructor
  · intro heq
    exact List.append_inj heq (List.length_map _)
  · rintro ⟨hfirst, hws⟩
    rw [hfirst, hws]

end

/-- `=?utf-8?Q?Hello?=` -/
def wordHello : EncodedWord where
  charset := str "utf-8"
  encoding := chr 'Q'
  encodedText := str "Hello"
  charset_nonempty := by decide +kernel
  charset_token := by decide +kernel
  encoding_known := by decide +kernel
  text_nonempty := by decide +kernel
  text_printable := by decide +kernel

/-- `=?us-ascii*en?b?IHRoZXJl?=` -/
def wordThere : EncodedWord where
  charset := str "us-ascii*en"
  encoding := chr 'b'
  encodedText := str "IHRoZXJl"
  charset_nonempty := by decide +kernel
  charset_token := by decide +kernel
  encoding_known := by decide +kernel
  text_nonempty := by decide +kernel
  text_printable := by decide +kernel

/-- Two words with a tab between them, and one that is not closed. -/
def greeting : WordText :=
  ⟨str "Re: ", [(wordHello, str "\t "), (wordThere, str "  =?utf-8?Q?open")]⟩

instance (icu : Converter) (p rest : Bytes) : Decidable (ClearSegment icu p rest) :=
  inferInstanceAs (Decidable (∀ k < p.length, wordAt icu (p.drop k ++ rest) = none))

theorem greeting_kept : decodeEncodedWords (fun _ _ => none) greeting.text =
    greeting.expected fun _ _ => none := by
  have hclear : greeting.Clear fun _ _ => none :=
    ⟨by decide +kernel, by decide +kernel, by decide +kernel, trivial⟩
  exact (decodeEncodedWords_iff hclear).2 (by decide +kernel)

example : greeting.expected (fun _ _ => none) = str "Re: Hello there  =?utf-8?Q?open" := by
  decide +kernel

/-- A text without a word. -/
def tabbed : WordText := ⟨str "a\tb", []⟩

/-- Its tab becomes a space; and what is not a word, for the space in it, is read as one. -/
theorem tabbed_changes : tabbed.Clear (fun _ _ => none) ∧
    decodeEncodedWords (fun _ _ => none) tabbed.text ≠ tabbed.expected (fun _ _ => none) ∧
      decodeEncodedWords (fun _ _ => none) (str "=?utf-8?Q?a b?=") = str "a b" :=
  ⟨⟨by decide +kernel, trivial⟩, by decide +kernel, by decide +kernel⟩

end Mime
end Imap2Pst
