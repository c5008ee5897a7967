import Imap2Pst.Std.Utf16
import Imap2Pst.Mime.Utf8
import Imap2Pst.Pst.Utf16

/-!
# Pst.Utf16Form

What `utf8ToUtf16le` writes is UTF-16, and it is the text that `isValidUtf8` accepts.

* `valid_front`   — the two decoders read the same character off a valid text.
* `chars_valid`   — a valid text is read character by character, whatever follows.
* `utf8_to_utf16` — the form of every string.
-/

namespace Imap2Pst
namespace Pst

open CxxStd
open Mime

/-! ## Octets -/

theorem leadOctet_cases {c : Byte} {extra : Nat} {bits : UInt32}
    (h : leadOctet c = some (extra, bits)) :
    utf8Lead c = (bits.toNat, extra) ∧
      (extra = 1 ∧ c.toNat = 0xC0 + bits.toNat ∧ bits.toNat < 0x20 ∨
        extra = 2 ∧ c.toNat = 0xE0 + bits.toNat ∧ bits.toNat < 0x10 ∨
        extra = 3 ∧ c.toNat = 0xF0 + bits.toNat ∧ bits.toNat < 8) := by
  have hall : ∀ c : Byte, (leadOctet c).all fun x =>
      utf8Lead c = (x.2.toNat, x.1) ∧
        (x.1 = 1 ∧ c.toNat = 0xC0 + x.2.toNat ∧ x.2.toNat < 0x20 ∨
          x.1 = 2 ∧ c.toNat = 0xE0 + x.2.toNat ∧ x.2.toNat < 0x10 ∨
          x.1 = 3 ∧ c.toNat = 0xF0 + x.2.toNat ∧ x.2.toNat < 8) :=
    forall_byte (by decide +kernel)
  have hc := hall c
  rw [h, Option.all_some, decide_eq_true_eq] at hc
  exact hc

theorem continuation_octet {c : Byte} (h : c &&& 0xC0 = 0x80) :
    c = UInt8.ofNat ((c &&& 0x3F).toNat + 0x80) ∧ (c &&& 0x3F).toNat < 64 := by
  have hall : ∀ c : Byte, c &&& 0xC0 = 0x80 →
      c = UInt8.ofNat ((c &&& 0x3F).toNat + 0x80) ∧ (c &&& 0x3F).toNat < 64 :=
    forall_byte (by decide +kernel)
  exact hall c h

/-- The octets that follow a lead carry six bits each, and both decoders add them up. -/
theorem continuation_spec {extra : Nat} {bits cp : UInt32} {cs : Bytes}
    (h : continuation extra bits cs = some cp) (hbits : (bits.toNat + 1) * 64 ^ extra ≤ 2 ^ 26) :
    ∃ ts : List Nat, ts.length = extra ∧ (∀ t ∈ ts, t < 64) ∧
      cs.take extra = ts.map (fun t => UInt8.ofNat (t + 0x80)) ∧
      cp.toNat = ts.foldl (fun n t => n * 64 + t) bits.toNat ∧
      ∀ b, utf8Rest extra bits.toNat (cs ++ b) = some cp.toNat := by
  induction extra generalizing bits cs with
  | zero =>
    cases h
    exact ⟨[], rfl, by simp, rfl, rfl, fun b => by cases cs <;> cases b <;> rfl⟩
  | succ extra ih =>
    cases cs with
    | nil => cases h
    | cons c cs =>
      simp only [continuation] at h
      split at h
      · rename_i hc
        obtain ⟨hoctet, hlt⟩ := continuation_octet hc
        rw [Nat.pow_succ', ← Nat.mul_assoc] at hbits
        have hpos : 0 < 64 ^ extra := Nat.pow_pos (by omega)
        have hbound : bits.toNat < 2 ^ 26 := by
          have hle := Nat.le_trans (Nat.le_mul_of_pos_right _ hpos) hbits
          omega
        obtain ⟨hword, hnat⟩ := six_more hbound hlt
        have hnext : ((bits <<< 6 ||| (c &&& 0x3F).toUInt32).toNat + 1) * 64 ^ extra ≤ 2 ^ 26 := by
          rw [hword]
          exact Nat.le_trans (Nat.mul_le_mul_right _ (by omega)) hbits
        obtain ⟨ts, hlength, hts, htake, hcp, hrest⟩ := ih h hnext
        rw [hword] at hcp hrest
        refine ⟨(c &&& 0x3F).toNat :: ts, by rw [List.length_cons, hlength], ?_, ?_, hcp,
          fun b => ?_⟩
        · intro t ht
          rcases List.mem_cons.1 ht with rfl | ht
          · exact hlt
          · exact hts t ht
        · rw [List.take_succ_cons, htake, List.map_cons, ← hoctet]
        · rw [List.cons_append, utf8Rest, if_neg (not_not_intro hc), hnat, hrest]
      · cases h

/-! ## Characters -/

/-- The character that `isValidUtf8` reads is the one that is encoded. -/
theorem acceptable_char {extra : Nat} {cp : UInt32} (h : acceptable extra cp = true) :
    (extra = 1 → 0x80 ≤ cp.toNat) ∧ (extra = 2 → 0x800 ≤ cp.toNat) ∧
      (extra = 3 → 0x10000 ≤ cp.toNat) ∧ cp.toNat.isValidChar := by
  simp only [acceptable, Bool.not_eq_true', Bool.or_eq_false_iff, Bool.and_eq_false_iff,
    decide_eq_false_iff_not, UInt32.lt_iff_toNat_lt, UInt32.le_iff_toNat_le,
    UInt32.reduceToNat] at h
  obtain ⟨⟨⟨⟨h1, h2⟩, h3⟩, hmax⟩, hgap⟩ := h
  refine ⟨fun he => ?_, fun he => ?_, fun he => ?_, ?_⟩
  · exact Nat.le_of_not_lt (h1.resolve_left (not_not_intro he))
  · exact Nat.le_of_not_lt (h2.resolve_left (not_not_intro he))
  · exact Nat.le_of_not_lt (h3.resolve_left (not_not_intro he))
  · unfold Nat.isValidChar
    omega

/-- The bits in a lead and in the octets after it are those of the character encoded. -/
theorem encoded_eq {c : Byte} {ch : Char} {extra n : Nat} {ts : List Nat}
    (hcases : extra = 1 ∧ c.toNat = 0xC0 + n ∧ n < 0x20 ∨
      extra = 2 ∧ c.toNat = 0xE0 + n ∧ n < 0x10 ∨ extra = 3 ∧ c.toNat = 0xF0 + n ∧ n < 8)
    (hlength : ts.length = extra) (hts : ∀ t ∈ ts, t < 64)
    (hsum : ch.toNat = ts.foldl (fun n t => n * 64 + t) n) (h1 : extra = 1 → 0x80 ≤ ch.toNat)
    (h2 : extra = 2 → 0x800 ≤ ch.toNat) (h3 : extra = 3 → 0x10000 ≤ ch.toNat) :
    String.utf8EncodeChar ch = c :: ts.map (fun t => UInt8.ofNat (t + 0x80)) := by
  rw [← UInt8.ofNat_toNat (x := c)]
  obtain ⟨rfl, hc, hn⟩ | ⟨rfl, hc, hn⟩ | ⟨rfl, hc, hn⟩ := hcases
  · obtain ⟨t, rfl⟩ := List.length_eq_one_iff.1 hlength
    have ht := hts t (by simp)
    simp only [List.foldl_cons, List.foldl_nil] at hsum
    have hfront := h1 rfl
    rw [String.utf8EncodeChar, Char.toNat_val, if_neg (by omega), if_pos (by omega),
      show ch.toNat / 64 % 0x20 + 0xC0 = c.toNat by omega, show ch.toNat % 0x40 = t by omega]
    rfl
  · obtain ⟨t, u, rfl⟩ := List.length_eq_two.1 hlength
    have ht := hts t (by simp)
    have hu := hts u (by simp)
    simp only [List.foldl_cons, List.foldl_nil] at hsum
    have hfront := h2 rfl
    rw [String.utf8EncodeChar, Char.toNat_val, if_neg (by omega), if_neg (by omega),
      if_pos (by omega), show ch.toNat / 4096 % 0x10 + 0xE0 = c.toNat by omega,
      show ch.toNat / 64 % 0x40 = t by omega, show ch.toNat % 0x40 = u by omega]
    rfl
  · obtain ⟨t, u, v, rfl⟩ := List.length_eq_three.1 hlength
    have ht := hts t (by simp)
    have hu := hts u (by simp)
    have hv := hts v (by simp)
    simp only [List.foldl_cons, List.foldl_nil] at hsum
    have hfront := h3 rfl
    rw [String.utf8EncodeChar, Char.toNat_val, if_neg (by omega), if_neg (by omega),
      if_neg (by omega), show ch.toNat / 262144 % 0x08 + 0xF0 = c.toNat by omega,
      show ch.toNat / 4096 % 0x40 = t by omega, show ch.toNat / 64 % 0x40 = u by omega,
      show ch.toNat % 0x40 = v by omega]
    rfl

/-- The two decoders read the same character off the front of a valid text. -/
theorem valid_front {c : Byte} {cs : Bytes} (h : isValidUtf8From 0 (c :: cs) = true) :
    ∃ (ch : Char) (extra : Nat), extra ≤ cs.length ∧
      (∀ b, utf8Point c (cs ++ b) = (ch.toNat, extra)) ∧
      String.utf8EncodeChar ch = c :: cs.take extra ∧ isValidUtf8From extra cs = true := by
  rw [isValidUtf8From] at h
  split at h
  · rename_i hascii
    refine ⟨Char.ofUInt8 c, 0, Nat.zero_le _, fun b => ?_, ?_, h⟩
    · rw [utf8Point, utf8Lead, if_pos hascii]
      cases cs <;> cases b <;> rfl
    · rw [utf8EncodeChar_ofUInt8 hascii]
      rfl
  · split at h
    · cases h
    · rename_i extra bits hlead
      split at h
      · cases h
      · rename_i cp hcp
        rw [Bool.and_eq_true] at h
        obtain ⟨h1, h2, h3, hvalid⟩ := acceptable_char h.1
        obtain ⟨hutf8Lead, hcases⟩ := leadOctet_cases hlead
        have hbits : (bits.toNat + 1) * 64 ^ extra ≤ 2 ^ 26 := by
          obtain ⟨rfl, -, hlt⟩ | ⟨rfl, -, hlt⟩ | ⟨rfl, -, hlt⟩ := hcases <;> omega
        obtain ⟨ts, hlength, hts, htake, hsum, hrest⟩ := continuation_spec hcp hbits
        have hle := (continuation_eq_some hcp []).1
        refine ⟨⟨cp, hvalid⟩, extra, hle, fun b => ?_, ?_, h.2⟩
        · have henough : ¬ (cs ++ b).length < extra := by
            rw [List.length_append]
            omega
          simp only [utf8Point, hutf8Lead, if_neg henough, hrest]
          rfl
        · rw [htake]
          exact encoded_eq hcases hlength hts hsum h1 h2 h3

/-- A valid text is read character by character, whatever follows. -/
theorem chars_valid {skip : Nat} {a : Bytes} (hskip : skip ≤ a.length)
    (h : isValidUtf8From skip a = true) :
    ∃ cs : List Char, a.drop skip = utf8 cs ∧
      ∀ b, charsFrom skip (a ++ b) = cs.map Char.toNat ++ chars b := by
  induction a generalizing skip with
  | nil =>
    cases Nat.le_zero.1 hskip
    exact ⟨[], rfl, fun b => rfl⟩
  | cons c a ih =>
    cases skip with
    | succ skip => exact ih (Nat.le_of_succ_le_succ hskip) h
    | zero =>
      obtain ⟨ch, extra, hle, hpoint, hencoded, hrest⟩ := valid_front h
      obtain ⟨cs, htext, hchars⟩ := ih hle hrest
      refine ⟨ch :: cs, ?_, fun b => ?_⟩
      · rw [List.drop_zero, utf8_cons, hencoded, ← htext, List.cons_append, List.take_append_drop]
      · have hscalar : scalar ch.toNat = ch.toNat := by
          refine scalar_of_isScalar ?_
          unfold IsScalar
          obtain h | h := char_range ch <;> omega
        rw [List.cons_append, charsFrom, hpoint, hchars, hscalar, List.map_cons, List.cons_append]

theorem utf16Units_toNat (c : Char) : utf16Units c.toNat = (utf16 c).flatMap (le 2) := by
  have hrange := char_range c
  have hscalar : scalar c.toNat = c.toNat := by
    refine scalar_of_isScalar ?_
    unfold IsScalar
    omega
  rw [utf16Units_eq, hscalar, utf16]
  split
  · simp
  · rw [Nat.shiftRight_eq_div_pow, Nat.and_two_pow_sub_one_eq_mod _ 10]
    simp

theorem utf8ToUtf16le_of_chars {s : Bytes} {cs : List Char} (h : chars s = cs.map Char.toNat) :
    utf8ToUtf16le s = utf16le cs := by
  rw [utf8ToUtf16le_eq, h, utf16le, List.flatMap_map, List.flatMap_assoc]
  exact congrArg cs.flatMap (funext utf16Units_toNat)

theorem exists_toNat {ns : List Nat} (h : ∀ n ∈ ns, IsScalar n) :
    ∃ cs : List Char, ns = cs.map Char.toNat := by
  induction ns with
  | nil => exact ⟨[], rfl⟩
  | cons n ns ih =>
    obtain ⟨cs, hcs⟩ := ih fun m hm => h m (List.mem_cons_of_mem _ hm)
    obtain ⟨hmax, hgap⟩ := h n List.mem_cons_self
    have hvalid : n.isValidChar := by
      unfold Nat.isValidChar
      omega
    refine ⟨Char.ofNatAux n hvalid :: cs, ?_⟩
    rw [List.map_cons, ← hcs]
    rfl

theorem chars_of_valid {s : Bytes} (h : isValidUtf8 s = true) :
    ∃ cs : List Char, s = utf8 cs ∧ chars s = cs.map Char.toNat ∧
      ∀ b, chars (s ++ b) = chars s ++ chars b := by
  obtain ⟨cs, htext, hchars⟩ := chars_valid (Nat.zero_le _) h
  have hs : chars s = cs.map Char.toNat := by
    have hend := hchars []
    rwa [List.append_nil, show chars [] = [] from rfl, List.append_nil] at hend
  exact ⟨cs, htext, hs, fun b => by rw [hs]; exact hchars b⟩

/-- **UTF-16.** Whatever the string, its stored form is well formed; a text is stored as its
    characters, which can be read back; and it is stored by itself, whatever follows. -/
theorem utf8_to_utf16 (s : Bytes) :
    WellFormed16 (utf8ToUtf16le s) ∧
      (isValidUtf8 s = true →
        (∃ cs : List Char, s = utf8 cs ∧ utf8ToUtf16le s = utf16le cs) ∧
          (decodeUtf16le (utf8ToUtf16le s)).map utf8 = some s) ∧
      ∀ a b, s = a ++ b → isValidUtf8 a = true →
        utf8ToUtf16le s = utf8ToUtf16le a ++ utf8ToUtf16le b := by
  refine ⟨?_, fun h => ?_, ?_⟩
  · obtain ⟨cs, hcs⟩ := exists_toNat (isScalar_charsFrom 0 s)
    rw [utf8ToUtf16le_of_chars hcs]
    exact wellFormed16_utf16le cs
  · obtain ⟨cs, hs, hchars, -⟩ := chars_of_valid h
    have hform := utf8ToUtf16le_of_chars hchars
    refine ⟨⟨cs, hs, hform⟩, ?_⟩
    rw [hform, decodeUtf16le_utf16le, Option.map_some, hs]
  · rintro a b rfl ha
    obtain ⟨cs, -, -, happend⟩ := chars_of_valid ha
    rw [utf8ToUtf16le_eq, utf8ToUtf16le_eq a, utf8ToUtf16le_eq b, ← List.flatMap_append, happend]

theorem clef_in_utf16 :
    utf8ToUtf16le (utf8 ['a', '𝄞'] ++ [0xC3]) =
      utf8ToUtf16le (utf8 ['a', '𝄞']) ++ utf8ToUtf16le [0xC3] ∧
    (decodeUtf16le (utf8ToUtf16le (utf8 ['a', '𝄞']))).map utf8 =
      some (utf8 ['a', '𝄞']) :=
  ⟨(utf8_to_utf16 _).2.2 _ _ rfl (by decide +kernel),
    ((utf8_to_utf16 _).2.1 (by decide +kernel)).2⟩

end Pst
end Imap2Pst
