import Imap2Pst.Mime.DateHeader
import Imap2Pst.Pst.Values
import Mathlib.Data.Nat.ModEq

/-!
# Pipeline.Dates

The times of a message, from the text of a header or of a FETCH answer to the ticks in the store.

* `parseInternalDate_eq` — an internal date is read as the instant it names.
* `filetime_exact_iff`   — the instants that reach the store as their ticks.
-/

namespace Imap2Pst
namespace Pipeline

open CxxStd
open Imap (monthNames internalDateFormat parseInternalDate)
open Mime (Reading readDate readFields parseDate parseDate_eq)
open Pst (unixToFiletime)

/-! ## Internal dates -/

/-- The seconds of a zone, and whether they lie west of Greenwich. -/
def readZone : List Field → Int × Bool
  | [sign, hh, mm] => ((hh.toInt * 60 + mm.toInt) * 60, sign.toChar = 45)
  | _ => (0, false)

/-- What `parseInternalDate` reads. -/
def readInternalDate (value : Bytes) : Option Reading :=
  match sscanf internalDateFormat (cstr value) with
  | day :: mon :: year :: hour :: minute :: second :: zone =>
    (monthNames.findIdx? (· = lower mon.toWord)).map fun month =>
      { year := year.toInt, month, day := day.toInt, hour := hour.toInt
        minute := minute.toInt, second := second.toInt
        zone := (readZone zone).1, west := (readZone zone).2 }
  | _ => none

theorem parseInternalDate_eq (value : Bytes) :
    parseInternalDate value = ((readInternalDate value).map Reading.result).getD 0 := by
  unfold parseInternalDate readInternalDate
  generalize sscanf internalDateFormat _ = fields
  rcases fields with _ | ⟨day, _ | ⟨mon, _ | ⟨year, _ | ⟨hour, _ | ⟨minute, _ | ⟨second, zone⟩⟩⟩⟩⟩⟩
  iterate 6 rfl
  dsimp only
  cases monthNames.findIdx? (· = lower mon.toWord) with
  | none => rfl
  | some month =>
    simp only [Option.map_some, Option.getD_some, Reading.result, Reading.utc, Reading.east]
    refine if_congr Iff.rfl rfl ?_
    rcases zone with _ | ⟨sign, _ | ⟨hh, _ | ⟨mm, _ | ⟨next, zone⟩⟩⟩⟩
    · exact (Int.sub_zero _).symm
    · exact (Int.sub_zero _).symm
    · exact (Int.sub_zero _).symm
    · simp only [readZone, decide_eq_true_eq]
    · exact (Int.sub_zero _).symm

/-! ## Ticks -/

/-- The first second past the last tick of 64 bits, in the year 60056. -/
def kFiletimeEnd : Int := 1833029933771

/-- The second the ticks are counted from, the first of 1601. -/
def kFiletimeBegin : Int := -11644473600

/-- The ticks of an instant, without a bound. -/
def ticks (unixSeconds : Int) : Int :=
  if unixSeconds ≤ -11644473600 then 0 else (unixSeconds + 11644473600) * 10000000

/-- A factor prime to the modulus can be cancelled. -/
theorem mul_mod_inj {modulus factor m n : Nat} (hprime : modulus.Coprime factor) (hm : m < modulus)
    (hn : n < modulus) : factor * m % modulus = factor * n % modulus ↔ m = n := by
  refine ⟨fun h => ?_, fun h => by rw [h]⟩
  have hsame : m ≡ n [MOD modulus] := Nat.ModEq.cancel_left_of_coprime hprime h
  rwa [Nat.ModEq, Nat.mod_eq_of_lt hm, Nat.mod_eq_of_lt hn] at hsame

/-- An instant below 2^57 seconds has the ticks of another if and only if these fit in 64 bits, and
the two are one or neither lies after 1601. -/
theorem unixToFiletime_eq_iff {t s : Int} (ht : t + 11644473600 < 2 ^ 57) :
    (unixToFiletime t : Int) = ticks s ↔
      s < kFiletimeEnd ∧ (t = s ∨ t ≤ kFiletimeBegin ∧ s ≤ kFiletimeBegin) := by
  unfold unixToFiletime ticks kFiletimeEnd kFiletimeBegin
  split
  · split <;> omega
  · obtain ⟨n, hn⟩ := Int.eq_ofNat_of_zero_le (a := t + 11644473600) (by omega)
    -- 10000000 is 128 times an odd number
    have hmod : n * 10000000 % 2 ^ 64 = 128 * (78125 * n % 2 ^ 57) := by omega
    have hodd : (2 ^ 57).Coprime 78125 := Nat.Coprime.pow_left 57 (by decide)
    have hcancel (m : Nat) (hm : 78125 * m < 2 ^ 57) : 78125 * n % 2 ^ 57 = 78125 * m ↔ n = m := by
      have hfit : 78125 * m % 2 ^ 57 = 78125 * m := Nat.mod_eq_of_lt hm
      refine ⟨fun h => (mul_mod_inj hodd ?_ ?_).1 (h.trans hfit.symm), ?_⟩
      · omega
      · omega
      · rintro rfl
        exact hfit
    have hless : 78125 * n % 2 ^ 57 < 2 ^ 57 := Nat.mod_lt _ (by decide)
    rw [hn, Int.toNat_natCast, hmod]
    generalize 78125 * n % 2 ^ 57 = x at hcancel hless
    split
    · have hzero := hcancel 0 (by decide)
      omega
    · obtain ⟨m, hm⟩ := Int.eq_ofNat_of_zero_le (a := s + 11644473600) (by omega)
      rw [hm]
      by_cases hend : 78125 * m < 2 ^ 57
      · have hsame := hcancel m hend
        omega
      · omega

theorem ticks_mono {s t : Int} (h : s ≤ t) : ticks s ≤ ticks t := by
  unfold ticks
  split <;> split <;> omega

/-! ## Fields -/

/-- The fields as the scanner leaves them, each an `int`. -/
structure Scanned (r : Reading) : Prop where
  year : FitsInt r.year
  day : FitsInt r.day
  hour : FitsInt r.hour
  minute : FitsInt r.minute
  second : FitsInt r.second
  zone : -2 ^ 43 ≤ r.zone ∧ r.zone ≤ 2 ^ 43

/-- The seconds of four digits. -/
theorem zone_range {digits : Int} (h : FitsInt digits) :
    -2 ^ 43 ≤ digits.tdiv 100 * 3600 + digits.tmod 100 * 60 ∧
      digits.tdiv 100 * 3600 + digits.tmod 100 * 60 ≤ 2 ^ 43 := by
  obtain ⟨hlow, hhigh⟩ := h
  have hparts := Int.mul_tdiv_add_tmod digits 100
  have hdiv : (digits.tdiv 100).natAbs = digits.natAbs / 100 := Int.natAbs_tdiv digits 100
  omega

theorem scanned_of_readDate {value : Bytes} {r : Reading} (h : readDate value = some r) :
    Scanned r := by
  unfold readDate at h
  have hfits := @fitsInt_sscanf Mime.dateFormat (cstr (Mime.behindDayName value))
  generalize sscanf Mime.dateFormat _ = fields at h hfits
  unfold readFields at h
  split at h
  · simp only [List.mem_cons, forall_eq_or_imp] at hfits
    obtain ⟨hday, -, hyear, hhour, hminute, hsecond, -⟩ := hfits
    obtain ⟨month, -, rfl⟩ := Option.map_eq_some_iff.1 h
    refine ⟨?_, hday, hhour, hminute, hsecond, ?_⟩
    · obtain ⟨hlow, hhigh⟩ := hyear
      dsimp only
      unfold FitsInt
      split <;> (try split) <;> omega
    · dsimp only
      split
      · exact zone_range (fitsInt_atoi _)
      · decide
  · cases h

theorem scanned_of_readInternalDate {value : Bytes} {r : Reading}
    (h : readInternalDate value = some r) : Scanned r := by
  unfold readInternalDate at h
  have hfits := @fitsInt_sscanf internalDateFormat (cstr value)
  generalize sscanf internalDateFormat _ = fields at h hfits
  split at h
  · rename_i zone
    simp only [List.mem_cons, forall_eq_or_imp] at hfits
    obtain ⟨hday, -, hyear, hhour, hminute, hsecond, hzone⟩ := hfits
    obtain ⟨month, -, rfl⟩ := Option.map_eq_some_iff.1 h
    refine ⟨hyear, hday, hhour, hminute, hsecond, ?_⟩
    dsimp only
    unfold readZone
    split
    · simp only [List.mem_cons, forall_eq_or_imp] at hzone
      obtain ⟨-, ⟨hhoursLow, hhoursHigh⟩, ⟨hminutesLow, hminutesHigh⟩, -⟩ := hzone
      omega
    · decide
  · cases h

/-- A year that is no `int` when counted from 1900 becomes one of the last. -/
theorem Scanned.late {r : Reading} (hr : Scanned r) (hutc : r.utc ≠ -1)
    (hyear : ¬ FitsInt (r.year - 1900)) :
    r.instant ≤ kFiletimeBegin ∧ kFiletimeBegin < r.utc - r.east (wrapInt r.zone) := by
  obtain ⟨⟨hyearLow, hyearHigh⟩, ⟨hdayLow, hdayHigh⟩, ⟨hhourLow, hhourHigh⟩,
    ⟨hminuteLow, hminuteHigh⟩, ⟨hsecondLow, hsecondHigh⟩, hzoneLow, hzoneHigh⟩ := hr
  obtain ⟨hwrapLow, hwrapHigh⟩ := fitsInt_wrapInt r.zone
  have hbelow : r.year - 1900 < -2 ^ 31 := by
    unfold FitsInt at hyear
    omega
  have htmYear : wrapInt (r.year - 1900) = r.year - 1900 + 2 ^ 32 :=
    wrapInt_of_lt (by omega) hbelow
  constructor
  · have hdays : daysToMonth r.year r.month ≤ 365 * (r.year + 1) := by
      unfold daysToMonth
      split <;> dsimp only <;> omega
    unfold Reading.instant Reading.east epochSeconds kFiletimeBegin
    split <;> omega
  · have hdays : 365 * (r.year + 2 ^ 32 - 2000) ≤ daysToMonth (r.year + 2 ^ 32) r.month := by
      unfold daysToMonth
      split <;> dsimp only <;> omega
    rw [Reading.utc] at hutc ⊢
    have hback : r.year - 1900 + 2 ^ 32 + 1900 = r.year + 2 ^ 32 := by omega
    rw [(timegm_of_ne hutc).2.2, htmYear, hback]
    unfold Reading.east epochSeconds kFiletimeBegin
    split <;> omega

/-! ## Times -/

/-- A text that one of the two parsers accepts, what it returns, and what was read. -/
inductive Accepts (value : Bytes) : Int → Reading → Prop
  | header {r : Reading} (h : readDate value = some r) (hutc : r.utc ≠ -1) :
      Accepts value (parseDate value) r
  | internal {r : Reading} (h : readInternalDate value = some r) (hutc : r.utc ≠ -1) :
      Accepts value (parseInternalDate value) r

theorem Accepts.scanned {value : Bytes} {t : Int} {r : Reading} (h : Accepts value t r) :
    Scanned r := by
  cases h with
  | header h => exact scanned_of_readDate h
  | internal h => exact scanned_of_readInternalDate h

theorem Accepts.utc_ne {value : Bytes} {t : Int} {r : Reading} (h : Accepts value t r) :
    r.utc ≠ -1 := by
  cases h with
  | header _ hutc => exact hutc
  | internal _ hutc => exact hutc

theorem Accepts.result_eq {value : Bytes} {t : Int} {r : Reading} (h : Accepts value t r) :
    t = r.utc - r.east (wrapInt r.zone) := by
  cases h with
  | header h hutc =>
    rw [parseDate_eq, h]
    exact if_neg hutc
  | internal h hutc =>
    rw [parseInternalDate_eq, h]
    exact if_neg hutc

/-- The instant lies before the end of 64 bits, the year counted from 1900 is an `int`, and so are
the seconds of the zone, unless the date lies before 1601 with them and with what they wrap to. -/
structure Exact (r : Reading) : Prop where
  instant_lt : r.instant < kFiletimeEnd
  year_fits : FitsInt (r.year - 1900)
  zone_fits : FitsInt r.zone ∨ r.instant ≤ kFiletimeBegin ∧
    { r with zone := wrapInt r.zone }.instant ≤ kFiletimeBegin

theorem Accepts.exact_iff {value : Bytes} {t : Int} {r : Reading} (h : Accepts value t r) :
    (unixToFiletime t : Int) = ticks r.instant ↔ Exact r := by
  have ht := h.result_eq
  have hutc := h.utc_ne
  obtain ⟨-, hend, hseconds⟩ := timegm_of_ne hutc
  obtain ⟨hzoneLow, hzoneHigh⟩ := fitsInt_wrapInt r.zone
  have hrange : t + 11644473600 < 2 ^ 57 := by
    have htime : kTimeEnd < 2 ^ 57 - 2 ^ 40 := by decide
    have heast : -r.east (wrapInt r.zone) ≤ 2 ^ 31 := by
      unfold Reading.east
      split <;> omega
    have hutcEnd : r.utc < kTimeEnd := hend
    omega
  rw [unixToFiletime_eq_iff hrange]
  by_cases hyear : FitsInt (r.year - 1900)
  · have hback : r.year - 1900 + 1900 = r.year := Int.sub_add_cancel _ _
    have hwrapped : t = { r with zone := wrapInt r.zone }.instant := by
      rw [ht, Reading.utc, hseconds, wrapInt_eq_iff.2 hyear, hback]
      rfl
    have hsame : t = r.instant ↔ FitsInt r.zone := by
      rw [← wrapInt_eq_iff, hwrapped]
      unfold Reading.instant Reading.east
      dsimp only
      split <;> omega
    rw [hsame]
    constructor
    · rintro ⟨hinstant, hfits | ⟨hresult, hearly⟩⟩
      · exact ⟨hinstant, hyear, .inl hfits⟩
      · exact ⟨hinstant, hyear, .inr ⟨hearly, hwrapped ▸ hresult⟩⟩
    · rintro ⟨hinstant, -, hfits | ⟨hearly, hresult⟩⟩
      · exact ⟨hinstant, .inl hfits⟩
      · exact ⟨hinstant, .inr ⟨hwrapped ▸ hresult, hearly⟩⟩
  · -- the year has wrapped
    obtain ⟨hearly, hlate⟩ := h.scanned.late hutc hyear
    refine iff_of_false ?_ fun hexact => hyear hexact.year_fits
    rintro ⟨-, rfl | ⟨hresult, -⟩⟩ <;> omega

/-- **Times.** An accepted date is stored as the ticks of its instant if and only if these fit in
    64 bits and no sum of the parser leaves an `int`; of two such dates the later never has fewer. -/
theorem filetime_exact_iff {value : Bytes} {t : Int} {r : Reading} (h : Accepts value t r) :
    ((unixToFiletime t : Int) = ticks r.instant ↔ Exact r) ∧
      ∀ value' t' r', Accepts value' t' r' → Exact r → Exact r' → r'.instant ≤ r.instant →
        unixToFiletime t' ≤ unixToFiletime t := by
  refine ⟨h.exact_iff, fun value' t' r' h' hexact hexact' hle => ?_⟩
  have hlate := h.exact_iff.2 hexact
  have hearly := h'.exact_iff.2 hexact'
  have hmono := ticks_mono hle
  omega

def moonDate : Bytes := str "Mon, 21 Jul 1969 02:56:15 +0000"

def lateDate : Bytes := str "29 May 60056 00:00:00 +0000"

theorem accepts_moon : Accepts moonDate (parseDate moonDate) ⟨1969, 6, 21, 2, 56, 15, 0, false⟩ :=
  .header (by decide +kernel) (by decide)

theorem exact_moon : Exact ⟨1969, 6, 21, 2, 56, 15, 0, false⟩ :=
  ⟨by decide, ⟨by decide, by decide⟩, .inl ⟨by decide, by decide⟩⟩

/-- Before the epoch, yet exact, and after what is earlier. -/
theorem moon_exact : (unixToFiletime (parseDate moonDate) : Int) = ticks (-14159025) ∧
    unixToFiletime (parseInternalDate (str "16-Jul-1969 13:32:00 +0000")) ≤
      unixToFiletime (parseDate moonDate) :=
  ⟨(filetime_exact_iff accepts_moon).1.2 exact_moon,
    (filetime_exact_iff accepts_moon).2 _ _ ⟨1969, 6, 16, 13, 32, 0, 0, false⟩
      (.internal (by decide +kernel) (by decide)) exact_moon
      ⟨by decide, ⟨by decide, by decide⟩, .inl ⟨by decide, by decide⟩⟩ (by decide)⟩

/-- The day after the last tick is stored as one before the epoch. -/
theorem filetime_wraps : ∃ r, Accepts lateDate (parseDate lateDate) r ∧
    (unixToFiletime (parseDate lateDate) : Int) ≠ ticks r.instant ∧
      unixToFiletime (parseDate lateDate) < unixToFiletime 0 :=
  ⟨⟨60056, 4, 29, 0, 0, 0, 0, false⟩, .header (by decide +kernel) (by decide), by decide +kernel,
    by decide +kernel⟩

end Pipeline
end Imap2Pst
