import Mathlib.Tactic.IntervalCases
import Imap2Pst.Mime.Encodings

/-!
# Mime.QuotedPrintable

The encodings of an octet string that `decodeQuotedPrintable` reads back.

* `Encodes`                         — literal octets, escapes and soft line breaks, in any mix.
* `decodeQuotedPrintable_encodes`   — every encoding of a string decodes to the string.
* `encodes_exists`                  — every string has an encoding.
-/

namespace Imap2Pst
namespace Mime

open CxxStd

/-- `c` is the digit of the value `v`, in either case. -/
def HexDigit (v : Byte) (c : Byte) : Prop :=
  (str "0123456789ABCDEF")[v.toNat]? = some c ∨ (str "0123456789abcdef")[v.toNat]? = some c

/-- `Encodes u d s`: `s` is a quoted-printable encoding of `d`, for an encoded word where `u`. -/
inductive Encodes (underscoreIsSpace : Bool) : Bytes → Bytes → Prop
  | nil : Encodes underscoreIsSpace [] []
  | literal {c : Byte} {d s : Bytes} (escaped : c ≠ chr '=')
      (underscore : underscoreIsSpace = true → c ≠ chr '_') :
      Encodes underscoreIsSpace d s → Encodes underscoreIsSpace (c :: d) (c :: s)
  | escape {c hi lo : Byte} {d s : Bytes} (high : HexDigit (c >>> 4) hi)
      (low : HexDigit (c &&& 15) lo) :
      Encodes underscoreIsSpace d s → Encodes underscoreIsSpace (c :: d) (chr '=' :: hi :: lo :: s)
  | space {d s : Bytes} (word : underscoreIsSpace = true) :
      Encodes underscoreIsSpace d s → Encodes underscoreIsSpace (chr ' ' :: d) (chr '_' :: s)
  | softCrLf {d s : Bytes} :
      Encodes underscoreIsSpace d s → Encodes underscoreIsSpace d (chr '=' :: 13 :: 10 :: s)
  | softLf {d s : Bytes} :
      Encodes underscoreIsSpace d s → Encodes underscoreIsSpace d (chr '=' :: 10 :: s)

/-! ## Digits -/

theorem hexValue_digit {v c : Byte} (h : HexDigit v c) : hexValue c = some v := by
  have hlt : v.toNat < 16 := by
    obtain h | h := h
    · exact (List.getElem?_eq_some_iff.1 h).1
    · exact (List.getElem?_eq_some_iff.1 h).1
  have hupper : ∀ i < 16, ((str "0123456789ABCDEF")[i]?).bind hexValue = some i.toUInt8 := by
    decide
  have hlower : ∀ i < 16, ((str "0123456789abcdef")[i]?).bind hexValue = some i.toUInt8 := by
    decide
  have hself : v.toNat.toUInt8 = v := UInt8.ofNat_toNat
  obtain h | h := h
  · rw [← hself, ← hupper _ hlt, h]
    rfl
  · rw [← hself, ← hlower _ hlt, h]
    rfl

/-- A digit ends no line. -/
theorem HexDigit.ne_break {v c : Byte} (h : HexDigit v c) : c ≠ 10 ∧ c ≠ 13 := by
  have hvalue := hexValue_digit h
  constructor
  · rintro rfl
    cases hvalue
  · rintro rfl
    cases hvalue

theorem nibbles_join (c : Byte) : (c >>> 4) <<< 4 ||| c &&& 15 = c := by
  refine UInt8.toBitVec_inj.1 (BitVec.eq_of_getLsbD_eq fun i hi => ?_)
  simp only [UInt8.toBitVec_or, UInt8.toBitVec_shiftLeft, UInt8.toBitVec_shiftRight,
    UInt8.toBitVec_and, UInt8.toBitVec_ofNat, BitVec.ofNat_eq_ofNat, BitVec.reduceMod,
    BitVec.ushiftRight_eq', BitVec.shiftLeft_eq', BitVec.toNat_ofNat, Nat.reducePow,
    Nat.reduceMod, BitVec.getLsbD_or, BitVec.getLsbD_and, BitVec.getLsbD_shiftLeft,
    BitVec.getLsbD_ushiftRight]
  interval_cases i <;> simp

/-! ## Decoding -/

theorem decode_literal {u : Bool} {c : Byte} (hescaped : c ≠ chr '=')
    (hunderscore : u = true → c ≠ chr '_') (s : Bytes) :
    decodeQuotedPrintable u (c :: s) = c :: decodeQuotedPrintable u s := by
  have hword : ¬ (decide (c = chr '_') && u) = true := by
    rw [Bool.and_eq_true, decide_eq_true_iff]
    exact fun h => hunderscore h.2 h.1
  conv_lhs => rw [decodeQuotedPrintable.eq_def]
  exact (if_neg hword).trans (if_pos hescaped)

theorem decode_space (s : Bytes) :
    decodeQuotedPrintable true (chr '_' :: s) = chr ' ' :: decodeQuotedPrintable true s := by
  conv_lhs => rw [decodeQuotedPrintable.eq_def]
  exact if_pos (by decide)

/-- An equals sign is no literal octet: what stands behind it decides. -/
theorem decode_equals (u : Bool) (d e : Byte) (s : Bytes) :
    decodeQuotedPrintable u (chr '=' :: d :: e :: s)
      = if d = 10 then decodeQuotedPrintable u (e :: s)
        else if d = 13 then
          if e = 10 then decodeQuotedPrintable u s else decodeQuotedPrintable u (e :: s)
        else match hexValue d, hexValue e with
          | some hi, some lo => (hi <<< 4 ||| lo) :: decodeQuotedPrintable u s
          | _, _ => chr '=' :: decodeQuotedPrintable u (d :: e :: s) := by
  have hword : ¬ (decide (chr '=' = chr '_') && u) = true := by
    rw [decide_eq_false (by decide), Bool.false_and]
    exact Bool.false_ne_true
  conv_lhs => rw [decodeQuotedPrintable.eq_def]
  exact (if_neg hword).trans (if_neg (not_not_intro rfl))

theorem decode_softCrLf (u : Bool) (s : Bytes) :
    decodeQuotedPrintable u (chr '=' :: 13 :: 10 :: s) = decodeQuotedPrintable u s := by
  rw [decode_equals, if_neg (by decide), if_pos rfl, if_pos rfl]

theorem decode_softLf (u : Bool) (s : Bytes) :
    decodeQuotedPrintable u (chr '=' :: 10 :: s) = decodeQuotedPrintable u s := by
  cases s with
  | nil => cases u <;> decide
  | cons c s => rw [decode_equals, if_pos rfl]

theorem decode_escape (u : Bool) {hi lo h l : Byte} (hhi : hexValue hi = some h)
    (hlo : hexValue lo = some l) (hbreak : hi ≠ 10 ∧ hi ≠ 13) (s : Bytes) :
    decodeQuotedPrintable u (chr '=' :: hi :: lo :: s)
      = (h <<< 4 ||| l) :: decodeQuotedPrintable u s := by
  rw [decode_equals, if_neg hbreak.1, if_neg hbreak.2, hhi, hlo]

/-- Every encoding of a string decodes to the string. -/
theorem decodeQuotedPrintable_encodes {u : Bool} {d s : Bytes} (h : Encodes u d s) :
    decodeQuotedPrintable u s = d := by
  induction h with
  | nil => rfl
  | literal hescaped hunderscore _ ih => rw [decode_literal hescaped hunderscore, ih]
  | escape hhigh hlow _ ih =>
    rw [decode_escape u (hexValue_digit hhigh) (hexValue_digit hlow) hhigh.ne_break, ih,
      nibbles_join]
  | space hword _ ih => rw [hword] at ih ⊢; rw [decode_space, ih]
  | softCrLf _ ih => rw [decode_softCrLf, ih]
  | softLf _ ih => rw [decode_softLf, ih]

/-- A word with a space, a literal octet, both escaped characters, digits of either case and soft
breaks inside and at the end. -/
theorem greeting_decoded :
    decodeQuotedPrintable true (str "a_=3d=\r\n=5F=\n=\r\n") = str "a =_" :=
  decodeQuotedPrintable_encodes
    (.literal (by decide) (by decide) <| .space rfl <|
      .escape (.inr (by decide)) (.inr (by decide)) <| .softCrLf <|
      .escape (.inl (by decide)) (.inl (by decide)) <| .softLf <| .softCrLf .nil)

theorem digit_exists {v : Byte} (h : v.toNat < 16) : ∃ c, HexDigit v c :=
  ⟨_, .inl (List.getElem?_eq_getElem h)⟩

/-- Every string has an encoding: all of it can be escaped. -/
theorem encodes_exists (u : Bool) (d : Bytes) : ∃ s, Encodes u d s := by
  induction d with
  | nil => exact ⟨[], .nil⟩
  | cons c d ih =>
    obtain ⟨s, hs⟩ := ih
    have hhigh : (c >>> 4).toNat < 16 := by
      rw [UInt8.toNat_shiftRight, Nat.shiftRight_eq_div_pow]
      exact Nat.div_lt_of_lt_mul (UInt8.toNat_lt c)
    have hlow : (c &&& 15).toNat < 16 := by
      rw [UInt8.toNat_and]
      exact Nat.lt_succ_of_le Nat.and_le_right
    obtain ⟨hi, hhi⟩ := digit_exists hhigh
    obtain ⟨lo, hlo⟩ := digit_exists hlow
    exact ⟨_, .escape hhi hlo hs⟩

end Mime
end Imap2Pst
