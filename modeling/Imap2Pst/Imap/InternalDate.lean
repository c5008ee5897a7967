import Imap2Pst.Imap.Parse
import Imap2Pst.Std.Calendar
import Imap2Pst.Std.Regroup

/-!
# Imap.InternalDate

Internal dates as a server writes them, and that `parseInternalDate` reads the second they stand
for.
-/

namespace Imap2Pst
namespace Imap

open CxxStd

/-- A number filled up with zeros to `w` digits. -/
def padded (w n : Nat) : Bytes := (fixedDigits 10 w n).map fun d => d.toUInt8 + 48

def monthTexts : List Bytes :=
  [str "Jan", str "Feb", str "Mar", str "Apr", str "May", str "Jun",
    str "Jul", str "Aug", str "Sep", str "Oct", str "Nov", str "Dec"]

/-- A local time and its zone, up to 14 hours east or west. -/
structure InternalDate where
  year : Nat
  /-- 0 is January -/
  month : Nat
  day : Nat
  hour : Nat
  minute : Nat
  second : Nat
  west : Bool
  zoneHour : Nat
  zoneMinute : Nat
  year_range : 1971 ≤ year ∧ year ≤ 9999
  month_lt : month < 12
  day_range : 1 ≤ day ∧ day ≤ daysInMonth year month
  hour_lt : hour < 24
  minute_lt : minute < 60
  second_le : second ≤ 60
  zoneMinute_lt : zoneMinute < 60
  zone_le : zoneHour * 60 + zoneMinute ≤ 14 * 60

namespace InternalDate

/-- `dd-Mon-yyyy hh:mm:ss +zzzz` -/
def text (d : InternalDate) : Bytes :=
  padded 2 d.day ++ 45 :: (monthTexts.getD d.month [] ++ 45 :: (padded 4 d.year ++ 32 ::
    (padded 2 d.hour ++ 58 :: (padded 2 d.minute ++ 58 :: (padded 2 d.second ++ 32 ::
      (if d.west then 45 else 43) :: (padded 2 d.zoneHour ++ padded 2 d.zoneMinute))))))

def zoneSeconds (d : InternalDate) : Int :=
  let seconds : Int := (d.zoneHour * 60 + d.zoneMinute) * 60
  if d.west then -seconds else seconds

/-- The Unix second of a date. -/
def unix (d : InternalDate) : Int :=
  unixSecond d.year d.month d.day d.hour d.minute d.second - d.zoneSeconds

end InternalDate

/-! ## Fields -/

theorem isDigit_of_mem_padded {w n : Nat} {c : Byte} (h : c ∈ padded w n) : isDigit c = true := by
  obtain ⟨d, hd, rfl⟩ := List.mem_map.1 h
  exact isDigit_digitByte (mem_fixedDigits_lt (by decide) hd)

@[simp] theorem padded_length (w n : Nat) : (padded w n).length = w := by
  rw [padded, List.length_map, fixedDigits_length]

theorem digitsVal_map {ds : List Nat} (h : ∀ d ∈ ds, d < 10) :
    digitsVal (ds.map fun d => d.toUInt8 + 48) = fromDigits 10 ds := by
  induction ds using List.reverseRecOn with
  | nil => rfl
  | append_singleton ds d ih =>
    have hds := ih fun x hx => h x (List.mem_append_left _ hx)
    have hd := h d (List.mem_append_right _ (List.mem_singleton_self d))
    rw [List.map_append, List.map_singleton, digitsVal_concat, hds, digitVal_digitByte hd,
      fromDigits_concat]

theorem digitsVal_padded {w n : Nat} (h : n < 10 ^ w) : digitsVal (padded w n) = n := by
  rw [padded, digitsVal_map fun d hd => mem_fixedDigits_lt (by decide) hd,
    fromDigits_fixedDigits (by decide) h]

/-- The first octet of a padded number. -/
theorem exists_padded_cons {w : Nat} (hw : 0 < w) (n : Nat) :
    ∃ c cs, padded w n = c :: cs ∧ isDigit c = true := by
  have hne : padded w n ≠ [] := List.ne_nil_of_length_pos (by rwa [padded_length])
  obtain ⟨c, cs, heq⟩ := List.exists_cons_of_ne_nil hne
  exact ⟨c, cs, heq, isDigit_of_mem_padded (heq ▸ List.mem_cons_self)⟩

theorem dropWhile_padded {w : Nat} (hw : 0 < w) (n : Nat) (rest : Bytes) :
    (padded w n ++ rest).dropWhile isSpace = padded w n ++ rest := by
  obtain ⟨c, cs, heq, hc⟩ := exists_padded_cons hw n
  rw [heq, List.cons_append, List.dropWhile_cons_of_neg (by simp [not_isSpace_of_isDigit hc])]

theorem takeWhile_padded (w n : Nat) {tail : Bytes} (h : ∀ c ∈ tail.head?, isDigit c = false) :
    (padded w n ++ tail).takeWhile isDigit = padded w n := by
  rw [List.takeWhile_append_of_pos fun c hc => isDigit_of_mem_padded hc]
  cases tail with
  | nil => rw [List.takeWhile_nil, List.append_nil]
  | cons c tail => rw [List.takeWhile_cons_of_neg (by simp [h c rfl]), List.append_nil]

/-- A number that fills its field, or is followed by something else than a digit. -/
theorem scanInt_padded {w n : Nat} (hw : 0 < w) (hn : n < 10 ^ w) {width : Option Nat} {rest : Bytes}
    (h : width = some w ∨ (width = none ∧ ∀ c ∈ rest.head?, isDigit c = false)) :
    scanInt width (padded w n ++ rest) = some ((n : Int), rest) := by
  obtain ⟨c, cs, heq, hc⟩ := exists_padded_cons hw n
  have hsign : c ≠ 45 ∧ c ≠ 43 := by
    constructor <;> rintro rfl <;> exact absurd hc (by decide)
  have hne : padded w n ≠ [] := heq ▸ List.cons_ne_nil c cs
  have hhead (tail : Bytes) : (padded w n ++ tail).head? = some c := by rw [heq]; rfl
  have hdrop : (padded w n ++ rest).drop (padded w n).length = rest := List.drop_left
  obtain rfl | ⟨rfl, hrest⟩ := h
  · have hfield : (padded w n ++ rest).take w = padded w n := List.take_left' (padded_length w n)
    have hhead' : (padded w n).head? = some c := by rw [heq]; rfl
    have htake := @takeWhile_padded w n [] (by simp)
    rw [List.append_nil] at htake
    rw [padded_length] at hdrop
    simp [scanInt, hfield, hhead', hsign, htake, hne, digitsVal_padded hn, hdrop]
  · rw [padded_length] at hdrop
    simp [scanInt, hhead, hsign, takeWhile_padded w n hrest, hne, digitsVal_padded hn, hdrop]

/-- A number of up to nine digits fits in an `int`. -/
theorem scanned_padded {w n : Nat} (hw : w ≤ 9) (hn : n < 10 ^ w) : scanned n = n :=
  scanned_eq (Nat.lt_trans (Nat.lt_of_lt_of_le hn (Nat.pow_le_pow_right (by decide) hw)) (by decide))

theorem sscanf_number {w n : Nat} (hw : 0 < w ∧ w ≤ 9) (hn : n < 10 ^ w) {c : Byte}
    (hc : isDigit c = false) (fmt : List Directive) (rest : Bytes) :
    sscanf (.int none :: fmt) (padded w n ++ c :: rest) = .int n :: sscanf fmt (c :: rest) := by
  have hnext : ∀ a ∈ (c :: rest).head?, isDigit a = false := by
    rintro a ha
    cases ha
    exact hc
  rw [sscanf_int, dropWhile_padded hw.1, scanInt_padded hw.1 hn (.inr ⟨rfl, hnext⟩)]
  dsimp only
  rw [scanned_padded hw.2 hn]

theorem sscanf_field {w n : Nat} (hw : 0 < w ∧ w ≤ 9) (hn : n < 10 ^ w) (fmt : List Directive)
    (rest : Bytes) :
    sscanf (.int (some w) :: fmt) (padded w n ++ rest) = .int n :: sscanf fmt rest := by
  rw [sscanf_int, dropWhile_padded hw.1, scanInt_padded hw.1 hn (.inl rfl)]
  dsimp only
  rw [scanned_padded hw.2 hn]

theorem sscanf_lit (c : Byte) (fmt : List Directive) (rest : Bytes) :
    sscanf (.lit c :: fmt) (c :: rest) = sscanf fmt rest := by
  rw [sscanf_octet, if_pos rfl]

theorem sscanf_start {w : Nat} (hw : 0 < w) (n : Nat) (fmt : List Directive) (rest : Bytes) :
    sscanf (.space :: fmt) (padded w n ++ rest) = sscanf fmt (padded w n ++ rest) := by
  rw [sscanf_blank, dropWhile_padded hw]

theorem sscanf_space_number {w : Nat} (hw : 0 < w) (n : Nat) (fmt : List Directive) (rest : Bytes) :
    sscanf (.space :: fmt) (32 :: (padded w n ++ rest)) = sscanf fmt (padded w n ++ rest) := by
  have hblank : isSpace 32 = true := by decide
  rw [sscanf_blank, List.dropWhile_cons_of_pos hblank, dropWhile_padded hw]

theorem sscanf_space_char {c : Byte} (hc : isSpace c = false) (fmt : List Directive)
    (rest : Bytes) : sscanf (.space :: .char :: fmt) (32 :: c :: rest) =
      .char c :: sscanf fmt rest := by
  have hblank : isSpace 32 = true := by decide
  rw [sscanf_blank, List.dropWhile_cons_of_pos hblank, List.dropWhile_cons_of_neg (by simp [hc]),
    sscanf_char]

theorem exists_monthText {m : Nat} (hm : m < 12) :
    ∃ a b c, monthTexts.getD m [] = [a, b, c] ∧ isSpace a = false ∧ isSpace b = false ∧
      isSpace c = false := by
  interval_cases m <;> exact ⟨_, _, _, rfl, by decide, by decide, by decide⟩

theorem sscanf_month {m : Nat} (hm : m < 12) (fmt : List Directive) (rest : Bytes) :
    sscanf (.word 3 :: fmt) (monthTexts.getD m [] ++ rest) =
      .word (monthTexts.getD m []) :: sscanf fmt rest := by
  obtain ⟨a, b, c, htext, ha, hb, hc⟩ := exists_monthText hm
  rw [htext, sscanf_word]
  simp [ha, hb, hc]

theorem findIdx?_month {m : Nat} (hm : m < 12) :
    monthNames.findIdx? (· = lower (monthTexts.getD m [])) = some m := by
  interval_cases m <;> decide

/-! ## Dates -/

namespace InternalDate

variable (d : InternalDate)

theorem day_lt : d.day < 10 ^ 2 := by
  have hle := daysInMonth_le d.year d.month
  have hday := d.day_range.2
  omega

theorem sscanf_text : sscanf internalDateFormat d.text =
    [.int d.day, .word (monthTexts.getD d.month []), .int d.year, .int d.hour, .int d.minute,
      .int d.second, .char (if d.west then 45 else 43), .int d.zoneHour, .int d.zoneMinute] := by
  have hbar : isDigit 45 = false := by decide
  have hcolon : isDigit 58 = false := by decide
  have hspace : isDigit 32 = false := by decide
  have hsign : isSpace (if d.west then 45 else 43) = false := by split <;> decide
  have hyear := d.year_range.2
  have hhour := d.hour_lt
  have hminute := d.minute_lt
  have hsecond := d.second_le
  have hzone := d.zone_le
  have hzone' := d.zoneMinute_lt
  have hlast : padded 2 d.zoneMinute = padded 2 d.zoneMinute ++ [] := (List.append_nil _).symm
  rw [internalDateFormat, text, hlast, sscanf_start (by decide),
    sscanf_number ⟨by decide, by decide⟩ d.day_lt hbar, sscanf_lit, sscanf_month d.month_lt, sscanf_lit,
    sscanf_number ⟨by decide, by decide⟩ (by omega) hspace, sscanf_space_number (by decide),
    sscanf_number ⟨by decide, by decide⟩ (by omega) hcolon, sscanf_lit,
    sscanf_number ⟨by decide, by decide⟩ (by omega) hcolon, sscanf_lit,
    sscanf_number ⟨by decide, by decide⟩ (by omega) hspace, sscanf_space_char hsign,
    sscanf_field ⟨by decide, by decide⟩ (by omega), sscanf_field ⟨by decide, by decide⟩ (by omega), sscanf]

/-- A date is made of digits, letters and separators. -/
theorem plain_of_mem_text : ∀ c ∈ d.text, c ≠ 0 ∧ c ≠ 34 ∧ c ≠ 92 ∧ c ≠ 10 := by
  have hnumber (w n : Nat) : ∀ c ∈ padded w n, c ≠ 0 ∧ c ≠ 34 ∧ c ≠ 92 ∧ c ≠ 10 := by
    intro c hc
    have hc := isDigit_of_mem_padded hc
    refine ⟨?_, ?_, ?_, ?_⟩ <;> rintro rfl <;> exact absurd hc (by decide)
  have hmonth : ∀ c ∈ monthTexts.getD d.month [], c ≠ 0 ∧ c ≠ 34 ∧ c ≠ 92 ∧ c ≠ 10 := by
    have hall : (monthTexts.getD d.month []).all
        (fun c => c ≠ 0 ∧ c ≠ 34 ∧ c ≠ 92 ∧ c ≠ 10) = true := by
      have hlt := d.month_lt
      generalize d.month = m at *
      interval_cases m <;> decide
    intro c hc
    simpa using List.all_eq_true.1 hall c hc
  simp only [text, List.forall_mem_append, List.forall_mem_cons]
  refine ⟨hnumber 2 _, by decide, hmonth, by decide, hnumber 4 _, by decide, hnumber 2 _,
    by decide, hnumber 2 _, by decide, hnumber 2 _, by decide, ?_, hnumber 2 _, hnumber 2 _⟩
  split <;> decide

theorem cstr_text : cstr d.text = d.text := by
  have hall : ∀ c ∈ d.text, decide (c ≠ 0) = true := fun c hc =>
    decide_eq_true (d.plain_of_mem_text c hc).1
  have htake := @List.takeWhile_append_of_pos Byte (· ≠ 0) d.text [] hall
  rwa [List.append_nil, List.takeWhile_nil, List.append_nil] at htake

/-- A date is read as the second it stands for. -/
theorem parseInternalDate_text : parseInternalDate d.text = d.unix := by
  have hpos := unixSecond_pos d.year_range.1 d.month d.day d.hour d.minute d.second
  have hyear := d.year_range
  have hday := d.day_range.2.trans (daysInMonth_le d.year d.month)
  have hhour := d.hour_lt
  have hzone := d.zone_le
  have hoffset : wrapInt ((d.zoneHour * 60 + d.zoneMinute : Int) * 60) =
      (d.zoneHour * 60 + d.zoneMinute : Int) * 60 := wrapInt_eq (by omega) (by omega)
  have htime : timegm (wrapInt ((d.year : Int) - 1900)) d.month d.day d.hour d.minute d.second =
      unixSecond d.year d.month d.day d.hour d.minute d.second := by
    rw [wrapInt_eq (by omega) (by omega)]
    exact timegm_eq ⟨by omega, hyear.2⟩ d.month_lt ⟨d.day_range.1, hday⟩ hhour d.minute_lt
      d.second_le
  have hmonth : monthNames.findIdx?
      (· = lower (Field.word (monthTexts.getD d.month [])).toWord) = some d.month :=
    findIdx?_month d.month_lt
  rw [parseInternalDate, d.cstr_text, d.sscanf_text]
  dsimp only
  rw [hmonth]
  refine (if_neg fun hfail => ?_).trans ?_
  · have hsame := htime.symm.trans hfail
    omega
  · change timegm (wrapInt (d.year - 1900)) d.month d.day d.hour d.minute d.second -
      (if (Field.char (if d.west then 45 else 43)).toChar = 45 then
        -wrapInt ((d.zoneHour * 60 + d.zoneMinute : Int) * 60)
      else wrapInt ((d.zoneHour * 60 + d.zoneMinute : Int) * 60)) = _
    rw [htime, hoffset, unix, zoneSeconds]
    cases d.west <;> rfl

end InternalDate

end Imap
end Imap2Pst
