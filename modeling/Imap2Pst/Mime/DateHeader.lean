import Imap2Pst.Imap.InternalDate
import Imap2Pst.Mime.Builder
import Imap2Pst.Std.Text

/-!
# Mime.DateHeader

The date-time of RFC 5322, and which of them `parseDate` reads.

* `MailDate`       — a date in its non-obsolete syntax, with the white space it is folded by.
* `MailDate.scan`  — the scanner on the part behind the day name.
* `parseDate_iff`  — the dates that are read.
-/

namespace Imap2Pst
namespace Mime

open CxxStd
open Imap (padded monthTexts scanInt_padded dropWhile_padded sscanf_lit exists_padded_cons
  isDigit_of_mem_padded padded_length scanned_padded)

/-! ## Reading -/

/-- A month with a name, and the numbers around it. -/
structure Reading where
  year : Int
  /-- 0 is January -/
  month : Nat
  day : Int
  hour : Int
  minute : Int
  second : Int
  /-- seconds, and whether they lie west of Greenwich -/
  zone : Int
  west : Bool
  deriving DecidableEq

namespace Reading

/-- Seconds east of Greenwich. -/
def east (r : Reading) (zone : Int) : Int := if r.west then -zone else zone

/-- The second it stands for, by the calendar. -/
def instant (r : Reading) : Int :=
  epochSeconds r.year r.month r.day r.hour r.minute r.second - r.east r.zone

/-- What `timegm` makes of it, the year having become an `int`. -/
def utc (r : Reading) : Int :=
  timegm (wrapInt (r.year - 1900)) r.month r.day r.hour r.minute r.second

/-- `timegm` fails with -1, which is also a second before the epoch. -/
def result (r : Reading) : Int := if r.utc = -1 then 0 else r.utc - r.east (wrapInt r.zone)

end Reading

/-- The text without the name of a day at its front. -/
def behindDayName (value : Bytes) : Bytes :=
  match find value (chr ',') 0 with
  | some comma => if comma < 5 then value.drop (comma + 1) else value
  | none => value

/-- The fields of `dateFormat`; a date needs six of them. -/
def readFields : List Field → Option Reading
  | day :: monthName :: year :: hour :: minute :: second :: zone =>
    (kMonths.findIdx? (· == lower (monthName.toWord.take 3))).map fun month =>
      let year := year.toInt
      let zone := (zone.headD (.word [])).toWord
      let digits := atoi zone.tail
      { year := if year < 100 then year + (if year < 70 then 2000 else 1900) else year
        month, day := day.toInt, hour := hour.toInt, minute := minute.toInt
        second := second.toInt
        zone :=
          if zone.head? = some (chr '+') ∨ zone.head? = some (chr '-') then
            digits.tdiv 100 * 3600 + digits.tmod 100 * 60
          else 0
        west := zone.head? = some (chr '-') }
  | _ => none

theorem readFields_short {fields : List Field} (h : fields.length < 6) :
    readFields fields = none := by
  unfold readFields
  split
  · simp only [List.length_cons] at h
    omega
  · rfl

/-- What `parseDate` reads; `none` for a text that is not a date. -/
def readDate (value : Bytes) : Option Reading :=
  readFields (sscanf dateFormat (cstr (behindDayName value)))

theorem parseDate_eq (value : Bytes) :
    parseDate value = ((readDate value).map Reading.result).getD 0 := by
  unfold parseDate readDate behindDayName readFields
  dsimp only
  generalize sscanf dateFormat _ = fields
  match fields with
  | day :: monthName :: year :: hour :: minute :: second :: zone =>
    dsimp only
    cases kMonths.findIdx? (· == lower (monthName.toWord.take 3)) with
    | none => rfl
    | some month =>
      simp only [Option.map_some, Option.getD_some, Reading.result, Reading.utc, Reading.east]
      refine if_congr Iff.rfl rfl ?_
      cases zone with
      | nil => exact (Int.sub_zero _).symm
      | cons zone rest =>
        rw [List.headD_cons]
        dsimp only
        have hsigns : chr '+' ≠ chr '-' := by decide
        by_cases heast : zone.toWord.head? = some (chr '+')
        · simp [heast, hsigns]
        · by_cases hwest : zone.toWord.head? = some (chr '-')
          · simp [hwest, hsigns.symm]
          · simp [heast, hwest, wrapInt]
  | [] | [_] | [_, _] | [_, _, _] | [_, _, _, _] | [_, _, _, _, _] => rfl

/-! ## Dates -/

/-- White space, and the line ends it may be folded at. -/
def Folding (s : Bytes) : Prop := ∀ c ∈ s, c = 32 ∨ c = 9 ∨ c = 13 ∨ c = 10

instance (s : Bytes) : Decidable (Folding s) :=
  inferInstanceAs (Decidable (∀ c ∈ s, c = 32 ∨ c = 9 ∨ c = 13 ∨ c = 10))

/-- What separates two fields. -/
structure Gap where
  text : Bytes
  nonempty : text ≠ []
  folding : Folding text

def dayNames : List Bytes := ["mon", "tue", "wed", "thu", "fri", "sat", "sun"].map str

/-- The name of a day, in any case, and the white space around its comma. -/
structure DayName where
  lead : Bytes
  name : Bytes
  after : Bytes
  lead_folding : Folding lead
  known : lower name ∈ dayNames
  after_folding : Folding after

/-- A local time and its zone. -/
structure MailDate where
  dayName : Option DayName
  /-- before the day, where no name stands there -/
  lead : Bytes
  /-- the day has one digit or two -/
  dayDigits : Nat
  day : Nat
  afterDay : Gap
  /-- 0 is January -/
  month : Nat
  monthName : Bytes
  afterMonth : Gap
  year : Nat
  afterYear : Gap
  hour : Nat
  minute : Nat
  second : Option Nat
  afterTime : Gap
  west : Bool
  zoneHour : Nat
  zoneMinute : Nat
  /-- comments and white space -/
  rest : Bytes
  lead_folding : Folding lead
  dayDigits_range : 1 ≤ dayDigits ∧ dayDigits ≤ 2 ∧ day < 10 ^ dayDigits
  day_range : 1 ≤ day ∧ day ≤ daysInMonth year month
  month_lt : month < 12
  month_known : lower monthName = lower (monthTexts.getD month [])
  year_range : 1971 ≤ year ∧ year ≤ 9999
  hour_lt : hour < 24
  minute_lt : minute < 60
  second_le : ∀ s ∈ second, s ≤ 60
  zoneHour_lt : zoneHour < 100
  zoneMinute_lt : zoneMinute < 60
  rest_start : ∀ c ∈ rest.head?, isSpace c = true ∨ c = chr '('

namespace MailDate

/-- From the zone's sign on. -/
def zoneText (d : MailDate) : Bytes :=
  (if d.west then chr '-' else chr '+') :: (padded 2 d.zoneHour ++ (padded 2 d.zoneMinute ++ d.rest))

/-- From the minute on. -/
def minuteText (d : MailDate) : Bytes :=
  padded 2 d.minute ++ match d.second with
    | none => d.afterTime.text ++ d.zoneText
    | some s => chr ':' :: (padded 2 s ++ (d.afterTime.text ++ d.zoneText))

/-- What follows the month. -/
def yearText (d : MailDate) : Bytes :=
  d.afterMonth.text ++ (padded 4 d.year ++ (d.afterYear.text ++ (padded 2 d.hour ++
    chr ':' :: d.minuteText)))

/-- What follows the day name. -/
def dayText (d : MailDate) : Bytes :=
  padded d.dayDigits d.day ++ (d.afterDay.text ++ (d.monthName ++ d.yearText))

def text (d : MailDate) : Bytes :=
  match d.dayName with
  | none => d.lead ++ d.dayText
  | some n => n.lead ++ (n.name ++ chr ',' :: (n.after ++ d.dayText))

def zoneSeconds (d : MailDate) : Int :=
  let seconds : Int := (d.zoneHour * 60 + d.zoneMinute) * 60
  if d.west then -seconds else seconds

/-- The Unix second of a date. -/
def unix (d : MailDate) : Int :=
  unixSecond d.year d.month d.day d.hour d.minute (d.second.getD 0) - d.zoneSeconds

end MailDate

/-! ## Fields -/

theorem Folding.blank {s : Bytes} (h : Folding s) : Blank s := by
  intro c hc
  rcases h c hc with rfl | rfl | rfl | rfl <;> decide

/-- White space in the format passes over white space in the text. -/
theorem sscanf_gap {s rest : Bytes} (h : Folding s) (hrest : ∀ c ∈ rest.head?, isSpace c = false)
    (fmt : List Directive) : sscanf (.space :: fmt) (s ++ rest) = sscanf fmt rest := by
  rw [sscanf_blank, List.dropWhile_append_of_pos h.blank]
  cases rest with
  | nil => rfl
  | cons c rest => rw [List.dropWhile_cons_of_neg (by simp [hrest c rfl])]

theorem Gap.head (g : Gap) (rest : Bytes) :
    ∀ c ∈ (g.text ++ rest).head?, isSpace c = true ∧ isDigit c = false := by
  obtain ⟨a, s, htext⟩ := List.exists_cons_of_ne_nil g.nonempty
  intro c hc
  rw [htext] at hc
  cases hc
  have ha := g.folding a (htext ▸ List.mem_cons_self)
  rcases ha with rfl | rfl | rfl | rfl <;> decide

theorem sscanf_digits {w n : Nat} (hw : 0 < w ∧ w ≤ 9) (hn : n < 10 ^ w) {rest : Bytes}
    (hrest : ∀ c ∈ rest.head?, isDigit c = false) (fmt : List Directive) :
    sscanf (.int none :: fmt) (padded w n ++ rest) = .int n :: sscanf fmt rest := by
  rw [sscanf_int, dropWhile_padded hw.1, scanInt_padded hw.1 hn (.inr ⟨rfl, hrest⟩)]
  dsimp only
  rw [scanned_padded hw.2 hn]

theorem padded_head {w : Nat} (hw : 0 < w) (n : Nat) (rest : Bytes) :
    ∀ c ∈ (padded w n ++ rest).head?, isSpace c = false := by
  obtain ⟨a, s, htext, ha⟩ := exists_padded_cons hw n
  intro c hc
  rw [htext] at hc
  cases hc
  exact not_isSpace_of_isDigit ha

theorem cstr_append {a b : Bytes} (ha : ∀ c ∈ a, c ≠ 0) : cstr (a ++ b) = a ++ cstr b :=
  List.takeWhile_append_of_pos fun c hc => decide_eq_true (ha c hc)

theorem cstr_cons {c : Byte} {s : Bytes} (hc : c ≠ 0) : cstr (c :: s) = c :: cstr s :=
  List.takeWhile_cons_of_pos (decide_eq_true hc)

theorem padded_ne_zero (w n : Nat) : ∀ c ∈ padded w n, c ≠ 0 := by
  rintro c hc rfl
  exact absurd (isDigit_of_mem_padded hc) (by decide)

theorem Folding.ne_zero {s : Bytes} (h : Folding s) : ∀ c ∈ s, c ≠ 0 := by
  rintro c hc rfl
  exact absurd (h 0 hc) (by decide)

theorem dropWhile_of_head {s : Bytes} (h : ∀ c ∈ s.head?, isSpace c = false) :
    s.dropWhile isSpace = s := by
  cases s with
  | nil => rfl
  | cons c s => rw [List.dropWhile_cons_of_neg (by simp [h c rfl])]

/-- A number does not begin with a letter. -/
theorem scanInt_letter {c : Byte} {s : Bytes} (hc : isDigit c = false) (hplus : c ≠ 43)
    (hminus : c ≠ 45) : scanInt none (c :: s) = none := by
  simp [scanInt, hplus, hminus, hc]

theorem atoi_padded {n : Nat} (hn : n < 10 ^ 4) {rest : Bytes}
    (hrest : ∀ c ∈ rest.head?, isDigit c = false) : atoi (padded 4 n ++ rest) = n := by
  rw [atoi, dropWhile_padded (by decide), scanInt_padded (by decide) hn (.inr ⟨rfl, hrest⟩)]
  exact scanned_padded (by decide) hn

/-! ## Names -/

/-- A letter of either case. -/
def isLetter (c : Byte) : Bool := 97 ≤ toLower c && toLower c ≤ 122

theorem isLetter_plain {c : Byte} (h : isLetter c = true) :
    isSpace c = false ∧ isDigit c = false ∧ c ≠ 0 ∧ c ≠ chr ',' ∧ c ≠ 43 ∧ c ≠ 45 := by
  have hall : ∀ c : Byte, isLetter c = true →
      isSpace c = false ∧ isDigit c = false ∧ c ≠ 0 ∧ c ≠ chr ',' ∧ c ≠ 43 ∧ c ≠ 45 :=
    forall_byte (by decide +kernel)
  exact hall c h

/-- A name in any case is three letters. -/
theorem name_letters {name known : Bytes} (h : lower name = known)
    (hknown : known.length = 3 ∧ known.all (fun c => 97 ≤ c && c ≤ 122) = true) :
    ∃ a b c, name = [a, b, c] ∧ ∀ x ∈ name, isLetter x = true := by
  have hlength : name.length = 3 := by rw [← lower_length, h, hknown.1]
  obtain ⟨a, b, c, rfl⟩ := List.length_eq_three.1 hlength
  refine ⟨a, b, c, rfl, fun x hx => ?_⟩
  have hmem : toLower x ∈ known := h ▸ List.mem_map_of_mem hx
  exact List.all_eq_true.1 hknown.2 _ hmem

namespace DayName

variable (n : DayName)

theorem letters : ∃ a b c, n.name = [a, b, c] ∧ ∀ x ∈ n.name, isLetter x = true := by
  have hall : ∀ known ∈ dayNames,
      known.length = 3 ∧ known.all (fun c => 97 ≤ c && c ≤ 122) = true := by decide
  exact name_letters rfl (hall _ n.known)

end DayName

namespace MailDate

variable (d : MailDate)

theorem letters : ∃ a b c, d.monthName = [a, b, c] ∧ ∀ x ∈ d.monthName, isLetter x = true := by
  have hall : ∀ month : Fin 12, (lower (monthTexts.getD month [])).length = 3 ∧
      (lower (monthTexts.getD month [])).all (fun c => 97 ≤ c && c ≤ 122) = true := by decide
  exact name_letters d.month_known (hall ⟨d.month, d.month_lt⟩)

/-! ## The scanner -/

/-- What is left of the format at the minute. -/
def minuteFormat : List Directive :=
  [.int none, .lit (chr ':'), .int none, .space, .word 15]

theorem scan_month (fmt : List Directive) (rest : Bytes) :
    sscanf (.word 15 :: fmt) (d.monthName ++ (d.afterMonth.text ++ rest)) =
      .word d.monthName :: sscanf fmt (d.afterMonth.text ++ rest) := by
  obtain ⟨a, b, c, hname, hletters⟩ := d.letters
  obtain ⟨g, gs, hgap⟩ := List.exists_cons_of_ne_nil d.afterMonth.nonempty
  have hg := (d.afterMonth.head rest g (by rw [hgap]; rfl)).1
  have hspace (x : Byte) (hx : x ∈ d.monthName) := (isLetter_plain (hletters x hx)).1
  rw [hname] at hspace ⊢
  have ha := hspace a (by simp)
  have hb := hspace b (by simp)
  have hc := hspace c (by simp)
  rw [sscanf_word, hgap]
  simp [ha, hb, hc, hg]

/-- Up to the minute every date is read alike. -/
theorem scan {lead : Bytes} (hlead : Folding lead) :
    sscanf dateFormat (lead ++ d.dayText) =
      .int d.day :: .word d.monthName :: .int d.year :: .int d.hour ::
        sscanf minuteFormat d.minuteText := by
  obtain ⟨hdigits, htwo, hday⟩ := d.dayDigits_range
  have hyear := d.year_range.2
  have hhour := d.hour_lt
  have hmonth : ∀ c ∈ (d.monthName ++ d.yearText).head?, isSpace c = false := by
    obtain ⟨a, b, c, hname, hletters⟩ := d.letters
    intro x hx
    rw [hname] at hx
    cases hx
    exact (isLetter_plain (hletters a (by simp [hname]))).1
  have hcolon : ∀ c ∈ (chr ':' :: d.minuteText).head?, isDigit c = false := by
    rintro c hc
    cases hc
    decide
  rw [dateFormat, dayText, sscanf_gap hlead (padded_head hdigits _ _),
    sscanf_digits ⟨hdigits, by omega⟩ hday fun c hc => (d.afterDay.head _ c hc).2,
    sscanf_gap d.afterDay.folding hmonth, yearText, d.scan_month,
    sscanf_gap d.afterMonth.folding (padded_head (by decide) _ _),
    sscanf_digits ⟨by decide, by decide⟩ (by omega) fun c hc => (d.afterYear.head _ c hc).2,
    sscanf_gap d.afterYear.folding (padded_head (by decide) _ _),
    sscanf_digits ⟨by decide, by decide⟩ (by omega) hcolon, sscanf_lit]
  rfl

theorem zone_head : ∀ c ∈ d.zoneText.head?, isSpace c = false := by
  rintro c hc
  cases hc
  split <;> decide

theorem zone_lt : d.zoneHour * 100 + d.zoneMinute < 10 ^ 4 := by
  have hhour := d.zoneHour_lt
  have hminute := d.zoneMinute_lt
  omega

/-- The word that is taken for the zone may run on into a comment. -/
theorem zone_word : ∃ u : Bytes, (∀ c ∈ u.head?, isDigit c = false) ∧
    (d.zoneText.take 15).takeWhile (fun c => !isSpace c) =
      (if d.west then chr '-' else chr '+') :: (padded 4 (d.zoneHour * 100 + d.zoneMinute) ++ u) := by
  have hdigits : padded 2 d.zoneHour ++ padded 2 d.zoneMinute =
      padded 4 (d.zoneHour * 100 + d.zoneMinute) := by
    have hminute := d.zoneMinute_lt
    have hconcat := @fixedDigits_concat 10 2 d.zoneMinute 2 d.zoneHour (by omega)
    rw [padded, padded, ← List.map_append, ← hconcat]
    rfl
  have hsign : isSpace (if d.west then chr '-' else chr '+') = false := by split <;> decide
  have hspace : ∀ c ∈ padded 4 (d.zoneHour * 100 + d.zoneMinute), (!isSpace c) = true := by
    intro c hc
    rw [not_isSpace_of_isDigit (isDigit_of_mem_padded hc)]
    rfl
  refine ⟨(d.rest.take 10).takeWhile fun c => !isSpace c, ?_, ?_⟩
  · cases hrest : d.rest with
    | nil => simp
    | cons x rest =>
      have hx := d.rest_start x (by rw [hrest]; rfl)
      rw [List.take_succ_cons, List.takeWhile_cons]
      split
      · rename_i hplain
        intro c hc
        cases hc
        rcases hx with hx | rfl
        · rw [hx] at hplain
          cases hplain
        · decide
      · simp
  · have htake : (padded 4 (d.zoneHour * 100 + d.zoneMinute) ++ d.rest).take 14 =
        padded 4 (d.zoneHour * 100 + d.zoneMinute) ++ d.rest.take 10 := by
      rw [List.take_append, padded_length, List.take_of_length_le (by simp)]
    rw [zoneText, ← List.append_assoc, hdigits, List.take_succ_cons, htake,
      List.takeWhile_cons_of_pos (by rw [hsign]; rfl), List.takeWhile_append_of_pos hspace]

theorem scan_zone : ∃ w, sscanf [.space, .word 15] (d.afterTime.text ++ d.zoneText) = [.word w] ∧
    w.head? = some (if d.west then chr '-' else chr '+') ∧
      atoi w.tail = (d.zoneHour * 100 + d.zoneMinute : Nat) := by
  obtain ⟨u, hu, hword⟩ := d.zone_word
  refine ⟨(if d.west then chr '-' else chr '+') ::
    (padded 4 (d.zoneHour * 100 + d.zoneMinute) ++ u), ?_, rfl, atoi_padded d.zone_lt hu⟩
  rw [sscanf_gap d.afterTime.folding d.zone_head, sscanf_word, dropWhile_of_head d.zone_head]
  dsimp only
  rw [hword, if_neg (List.cons_ne_nil _ _)]
  rfl

theorem scan_minute_none (h : d.second = none) :
    sscanf minuteFormat d.minuteText = [.int d.minute] := by
  have hgap := d.afterTime.head d.zoneText
  have hminute := d.minute_lt
  rw [minuteFormat, minuteText, h]
  dsimp only
  rw [sscanf_digits ⟨by decide, by decide⟩ (by omega) fun c hc => (hgap c hc).2]
  obtain ⟨g, gs, htext⟩ := List.exists_cons_of_ne_nil d.afterTime.nonempty
  have hg : g ≠ chr ':' := by
    rintro rfl
    exact absurd (hgap (chr ':') (by rw [htext]; rfl)).1 (by decide)
  rw [htext, List.cons_append, sscanf_octet, if_neg hg]

theorem scan_minute_some {s : Nat} (h : d.second = some s) :
    ∃ w, sscanf minuteFormat d.minuteText = [.int d.minute, .int s, .word w] ∧
      w.head? = some (if d.west then chr '-' else chr '+') ∧
        atoi w.tail = (d.zoneHour * 100 + d.zoneMinute : Nat) := by
  obtain ⟨w, hscan, hhead, htail⟩ := d.scan_zone
  have hminute := d.minute_lt
  have hsecond := d.second_le s h
  have hcolon (rest : Bytes) : ∀ c ∈ (chr ':' :: rest).head?, isDigit c = false := by
    rintro c hc
    cases hc
    decide
  refine ⟨w, ?_, hhead, htail⟩
  rw [minuteFormat, minuteText, h]
  dsimp only
  rw [sscanf_digits ⟨by decide, by decide⟩ (by omega) (hcolon _), sscanf_lit,
    sscanf_digits ⟨by decide, by decide⟩ (by omega) fun c hc => (d.afterTime.head _ c hc).2, hscan]

/-! ## Reading -/

/-- The date as a C string ends where a comment has a NUL. -/
def cut : MailDate := { d with
  rest := cstr d.rest
  rest_start := by
    intro c hc
    refine d.rest_start c ?_
    cases hrest : d.rest with
    | nil =>
      rw [hrest] at hc
      cases hc
    | cons x rest =>
      rw [hrest, cstr, List.takeWhile_cons] at hc
      split at hc
      · exact hc
      · cases hc }

theorem cstr_dayText {lead : Bytes} (hlead : Folding lead) :
    cstr (lead ++ d.dayText) = lead ++ d.cut.dayText := by
  have hmonth : ∀ c ∈ d.monthName, c ≠ 0 := by
    obtain ⟨-, -, -, -, hletters⟩ := d.letters
    exact fun c hc => (isLetter_plain (hletters c hc)).2.2.1
  have hzone : cstr d.zoneText = d.cut.zoneText := by
    have hsign : (if d.west then chr '-' else chr '+') ≠ 0 := by split <;> decide
    rw [zoneText, cstr_cons hsign]
    exact congrArg _ ((cstr_append (padded_ne_zero 2 _)).trans
      (congrArg _ (cstr_append (padded_ne_zero 2 _))))
  have htime : cstr (d.afterTime.text ++ d.zoneText) = d.afterTime.text ++ d.cut.zoneText := by
    rw [cstr_append d.afterTime.folding.ne_zero, hzone]
  have hcolon (s : Bytes) : cstr (chr ':' :: s) = chr ':' :: cstr s := cstr_cons (by decide)
  have hminute : cstr d.minuteText = d.cut.minuteText := by
    rw [minuteText, cstr_append (padded_ne_zero 2 _)]
    cases h : d.second with
    | none =>
      dsimp only
      rw [htime, minuteText, show d.cut.second = none from h]
      rfl
    | some s =>
      dsimp only
      rw [hcolon, cstr_append (padded_ne_zero 2 _), htime, minuteText,
        show d.cut.second = some s from h]
      rfl
  rw [dayText, cstr_append hlead.ne_zero, cstr_append (padded_ne_zero _ _),
    cstr_append d.afterDay.folding.ne_zero, cstr_append hmonth, yearText,
    cstr_append d.afterMonth.folding.ne_zero, cstr_append (padded_ne_zero _ _),
    cstr_append d.afterYear.folding.ne_zero, cstr_append (padded_ne_zero _ _), hcolon, hminute]
  rfl

/-- A date without its day name is read if it has seconds. -/
theorem read_dayText {lead : Bytes} (hlead : Folding lead) :
    (∀ s, d.second = some s → ∃ w, sscanf dateFormat (cstr (lead ++ d.dayText)) =
      [.int d.day, .word d.monthName, .int d.year, .int d.hour, .int d.minute, .int s, .word w] ∧
        w.head? = some (if d.west then chr '-' else chr '+') ∧
          atoi w.tail = (d.zoneHour * 100 + d.zoneMinute : Nat)) ∧
    (d.second = none → (sscanf dateFormat (cstr (lead ++ d.dayText))).length = 5) := by
  rw [d.cstr_dayText hlead]
  refine ⟨fun s hs => ?_, fun hs => ?_⟩
  · obtain ⟨w, hscan, hw⟩ := d.cut.scan_minute_some hs
    exact ⟨w, by rw [d.cut.scan hlead, hscan]; rfl, hw⟩
  · rw [d.cut.scan hlead, d.cut.scan_minute_none hs]
    rfl

theorem findIdx?_kMonths : kMonths.findIdx? (· == lower (d.monthName.take 3)) = some d.month := by
  obtain ⟨a, b, c, hname, -⟩ := d.letters
  have hall : ∀ month : Fin 12,
      kMonths.findIdx? (· == lower (monthTexts.getD month [])) = some month.val := by
    decide +kernel
  have htake : d.monthName.take 3 = d.monthName := by rw [hname]; rfl
  rw [htake, d.month_known]
  exact hall ⟨d.month, d.month_lt⟩

theorem unix_pos : 0 < d.unix := by
  have hlocal := unixSecond_ge d.year_range.1 d.month d.day d.hour d.minute (d.second.getD 0)
  have hhour := d.zoneHour_lt
  have hminute := d.zoneMinute_lt
  rw [unix, zoneSeconds]
  split <;> omega

theorem readFields_date {s : Nat} {w : Bytes}
    (hsign : w.head? = some (if d.west then chr '-' else chr '+'))
    (hzone : atoi w.tail = (d.zoneHour * 100 + d.zoneMinute : Nat)) :
    readFields [.int d.day, .word d.monthName, .int d.year, .int d.hour, .int d.minute, .int s,
      .word w] = some ⟨d.year, d.month, d.day, d.hour, d.minute, s,
        (d.zoneHour * 60 + d.zoneMinute) * 60, d.west⟩ := by
  have hyear : ¬ (d.year : Int) < 100 := by
    have h := d.year_range.1
    omega
  have hminute := d.zoneMinute_lt
  have hdiv : ((d.zoneHour * 100 + d.zoneMinute : Nat) : Int).tdiv 100 = d.zoneHour := by
    rw [Int.natCast_tdiv_eq_ediv]
    omega
  have hmod : ((d.zoneHour * 100 + d.zoneMinute : Nat) : Int).tmod 100 = d.zoneMinute := by
    have hnat : (d.zoneHour * 100 + d.zoneMinute) % 100 = d.zoneMinute := by omega
    exact (Int.ofNat_tmod _ 100).symm.trans (congrArg _ hnat)
  have hzone' : (if w.head? = some (chr '+') ∨ w.head? = some (chr '-') then
      (d.zoneHour : Int) * 3600 + d.zoneMinute * 60 else 0) =
        (d.zoneHour * 60 + d.zoneMinute) * 60 := by
    have heither : w.head? = some (chr '+') ∨ w.head? = some (chr '-') := by
      rw [hsign]
      cases d.west with
      | false => exact .inl rfl
      | true => exact .inr rfl
    rw [if_pos heither]
    omega
  have hwest : decide (w.head? = some (chr '-')) = d.west := by
    rw [hsign]
    cases d.west <;> decide
  simp only [readFields, Field.toInt, Field.toWord, findIdx?_kMonths, Option.map_some,
    List.headD_cons, hyear, hzone, hdiv, hmod, hzone', if_false, Option.some.injEq,
    Reading.mk.injEq, true_and]
  exact hwest

/-- `parseDate` behind the day name. -/
theorem parse_rest {value lead : Bytes} (hlead : Folding lead)
    (hvalue : behindDayName value = lead ++ d.dayText) :
    parseDate value = if d.second.isSome then d.unix else 0 := by
  obtain ⟨hsome, hnone⟩ := d.read_dayText hlead
  rw [parseDate_eq, readDate, hvalue]
  cases hsecond : d.second with
  | none =>
    rw [readFields_short (by rw [hnone hsecond]; decide)]
    rfl
  | some s =>
    obtain ⟨w, hscan, hsign, hzone⟩ := hsome s hsecond
    have hyear := d.year_range
    have hday := d.day_range.2.trans (daysInMonth_le d.year d.month)
    have hhour := d.zoneHour_lt
    have hminute := d.zoneMinute_lt
    have hpos := unixSecond_ge d.year_range.1 d.month d.day d.hour d.minute s
    have htime : timegm (wrapInt ((d.year : Int) - 1900)) d.month d.day d.hour d.minute s =
        unixSecond d.year d.month d.day d.hour d.minute s := by
      rw [wrapInt_eq (by omega) (by omega)]
      exact timegm_eq ⟨by omega, hyear.2⟩ d.month_lt ⟨d.day_range.1, hday⟩ d.hour_lt d.minute_lt
        (d.second_le s hsecond)
    have hwrap : wrapInt ((d.zoneHour * 60 + d.zoneMinute : Int) * 60) =
        (d.zoneHour * 60 + d.zoneMinute) * 60 := wrapInt_eq (by omega) (by omega)
    rw [hscan, d.readFields_date hsign hzone, Option.map_some, Option.getD_some, Reading.result,
      Reading.utc, htime, if_neg (by omega), Reading.east, hwrap, Option.isSome_some, if_pos rfl,
      unix, hsecond, Option.getD_some]
    rfl

/-! ## The day name -/

/-- The day and its month have no comma, and five octets or more. -/
theorem no_comma : chr ',' ∉ padded d.dayDigits d.day ++ (d.afterDay.text ++ d.monthName) ∧
    5 ≤ (padded d.dayDigits d.day ++ (d.afterDay.text ++ d.monthName)).length := by
  obtain ⟨a, b, c, hname, hletters⟩ := d.letters
  constructor
  · simp only [List.mem_append, not_or]
    refine ⟨fun h => ?_, fun h => ?_, fun h => ?_⟩
    · exact absurd (isDigit_of_mem_padded h) (by decide)
    · exact absurd (d.afterDay.folding _ h) (by decide)
    · exact (isLetter_plain (hletters _ h)).2.2.2.1 rfl
  · have hdigits := d.dayDigits_range.1
    have hgap := List.length_pos_iff.2 d.afterDay.nonempty
    simp only [List.length_append, padded_length, hname, List.length_cons]
    omega

theorem behindDayName_none (h : d.dayName = none) : behindDayName d.text = d.lead ++ d.dayText := by
  obtain ⟨hcomma, hlength⟩ := d.no_comma
  have hlead : chr ',' ∉ d.lead := fun h => absurd (d.lead_folding _ h) (by decide)
  have htext : d.text = (d.lead ++ (padded d.dayDigits d.day ++ (d.afterDay.text ++ d.monthName))) ++
      d.yearText := by
    simp only [text, h, dayText, List.append_assoc]
  have hfront := fun k => @find_append_ge _ d.yearText (chr ',') k
    (not_or.2 ⟨hlead, hcomma⟩ ∘ List.mem_append.1)
  rw [behindDayName, show d.lead ++ d.dayText = d.text by rw [text, h]]
  split
  · rename_i k hk
    rw [htext] at hk
    have hge := hfront k hk
    rw [List.length_append] at hge
    exact if_neg (by omega)
  · rfl

variable {d} {n : DayName}

theorem find_comma (h : d.dayName = some n) :
    find d.text (chr ',') 0 = some (n.lead.length + 3) := by
  obtain ⟨a, b, c, hname, hletters⟩ := n.letters
  have hpre : chr ',' ∉ n.lead ++ n.name := by
    rw [List.mem_append, not_or]
    refine ⟨fun h => absurd (n.lead_folding _ h) (by decide), fun h => ?_⟩
    exact (isLetter_plain (hletters _ h)).2.2.2.1 rfl
  have htext : d.text.drop 0 = (n.lead ++ n.name) ++ chr ',' :: (n.after ++ d.dayText) := by
    rw [List.drop_zero, text, h, List.append_assoc]
  rw [find_of_append htext hpre, List.length_append, hname, Nat.zero_add]
  rfl

theorem behindDayName_some (h : d.dayName = some n) (hlead : n.lead.length ≤ 1) :
    behindDayName d.text = n.after ++ d.dayText := by
  obtain ⟨a, b, c, hname, -⟩ := n.letters
  rw [behindDayName, find_comma h]
  dsimp only
  rw [if_pos (by omega)]
  have htext : d.text = (n.lead ++ [a, b, c, chr ',']) ++ (n.after ++ d.dayText) := by
    simp [text, h, hname]
  rw [htext]
  exact List.drop_left' (by simp)

/-- Behind more white space the name of a day is taken for the day. -/
theorem parseDate_far (h : d.dayName = some n) (hlead : 2 ≤ n.lead.length) :
    parseDate d.text = 0 := by
  obtain ⟨a, b, c, hname, hletters⟩ := n.letters
  obtain ⟨hspace, hdigit, hzero, -, hplus, hminus⟩ :=
    isLetter_plain (hletters a (by rw [hname]; exact List.mem_cons_self))
  have hwhole : behindDayName d.text = d.text := by
    rw [behindDayName, find_comma h]
    exact if_neg (by omega)
  have htext : d.text = n.lead ++ a :: (b :: c :: chr ',' :: (n.after ++ d.dayText)) := by
    simp [text, h, hname]
  rw [parseDate_eq, readDate, hwhole, htext, cstr_append n.lead_folding.ne_zero, cstr_cons hzero,
    dateFormat, sscanf_gap n.lead_folding (by simp [hspace]), sscanf_int,
    dropWhile_of_head (by simp [hspace]), scanInt_letter hdigit hplus hminus]
  rfl

end MailDate

/-- **Dates.** A date is read as its second if and only if it has seconds and the name of its day,
    where it has one, stands behind at most one octet of white space. -/
theorem parseDate_iff (d : MailDate) : parseDate d.text = d.unix ↔
    d.second.isSome ∧ ∀ n ∈ d.dayName, n.lead.length ≤ 1 := by
  have hpos := d.unix_pos
  have hread {x : Int} (hx : x = if d.second.isSome then d.unix else 0) :
      x = d.unix ↔ d.second.isSome := by
    rw [hx]
    split
    · simp [*]
    · simp [*]
      omega
  cases hname : d.dayName with
  | none =>
    rw [hread (d.parse_rest d.lead_folding (d.behindDayName_none hname))]
    simp
  | some n =>
    by_cases hlead : n.lead.length ≤ 1
    · rw [hread (d.parse_rest n.after_folding (MailDate.behindDayName_some hname hlead))]
      simp [hlead]
    · rw [MailDate.parseDate_far hname (by omega)]
      simp [hlead]
      omega

/-- `Tue, 21 Nov 2023 09:15 +0100` -/
def noSeconds : MailDate where
  dayName := some ⟨[], str "Tue", [32], by decide +kernel, by decide +kernel, by decide +kernel⟩
  lead := []
  dayDigits := 2
  day := 21
  afterDay := ⟨[32], by decide +kernel, by decide +kernel⟩
  month := 10
  monthName := str "Nov"
  afterMonth := ⟨[32], by decide +kernel, by decide +kernel⟩
  year := 2023
  afterYear := ⟨[32], by decide +kernel, by decide +kernel⟩
  hour := 9
  minute := 15
  second := none
  afterTime := ⟨[32], by decide +kernel, by decide +kernel⟩
  west := false
  zoneHour := 1
  zoneMinute := 0
  rest := []
  lead_folding := by decide +kernel
  dayDigits_range := by decide +kernel
  day_range := by decide +kernel
  month_lt := by decide +kernel
  month_known := by decide +kernel
  year_range := by decide +kernel
  hour_lt := by decide +kernel
  minute_lt := by decide +kernel
  second_le := by simp
  zoneHour_lt := by decide +kernel
  zoneMinute_lt := Nat.zero_lt_succ 59
  rest_start := by simp

theorem noSeconds_unread : noSeconds.text = str "Tue, 21 Nov 2023 09:15 +0100" ∧
    parseDate noSeconds.text = 0 ∧ noSeconds.unix = 1700554500 := by
  refine ⟨by decide +kernel, by decide +kernel, by decide +kernel⟩

end Mime
end Imap2Pst
