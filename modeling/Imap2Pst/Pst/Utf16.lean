import Imap2Pst.Pst.Values

/-!
# Pst.Utf16

What the UTF-16 form of a string keeps of it: its characters, and nothing else.

* `chars` — the characters of an octet string, U+FFFD for what is not one.
* `foldUtf16` — the stored form without the case of ASCII letters.
* `sameText_iff` — two strings are stored alike, up to that case, when their characters are.
-/

namespace Imap2Pst
namespace Pst

open CxxStd

/-- A code point that is a character. -/
def IsScalar (cp : Nat) : Prop := cp ≤ 0x10FFFF ∧ ¬ (0xD800 ≤ cp ∧ cp ≤ 0xDFFF)

/-- What `utf16Units` puts in the place of a code point that is not a character. -/
def scalar (cp : Nat) : Nat := if 0x10FFFF < cp ∨ 0xD800 ≤ cp ∧ cp ≤ 0xDFFF then 0xFFFD else cp

theorem isScalar_scalar (cp : Nat) : IsScalar (scalar cp) := by
  unfold IsScalar scalar
  split <;> omega

theorem scalar_of_isScalar {cp : Nat} (h : IsScalar cp) : scalar cp = cp := by
  unfold IsScalar at h
  exact if_neg (by omega)

/-! ## Units -/

/-- One unit, or two of which neither is a character. -/
theorem utf16Units_cases {cp : Nat} (h : IsScalar cp) :
    cp < 0x10000 ∧ utf16Units cp = le 2 cp ∨
      ∃ high low, high < 0x400 ∧ low < 0x400 ∧ cp = 0x10000 + high * 0x400 + low ∧
        utf16Units cp = le 2 (0xD800 + high) ++ le 2 (0xDC00 + low) := by
  obtain ⟨hmax, hgap⟩ := h
  have hkeep : ¬ (0x10FFFF < cp ∨ 0xD800 ≤ cp ∧ cp ≤ 0xDFFF) := by omega
  simp only [utf16Units, if_neg hkeep]
  by_cases hsmall : cp < 0x10000
  · rw [if_pos hsmall]
    exact .inl ⟨hsmall, rfl⟩
  · rw [if_neg hsmall]
    refine .inr ⟨(cp - 0x10000) / 0x400, (cp - 0x10000) % 0x400, by omega, by omega, by omega, ?_⟩
    rw [Nat.shiftRight_eq_div_pow, Nat.and_two_pow_sub_one_eq_mod _ 10]

theorem le_two_inj {a b : Nat} (ha : a < 2 ^ 16) (hb : b < 2 ^ 16) (h : le 2 a = le 2 b) :
    a = b := by
  rw [← fromLe_le_of_lt (w := 2) ha, h, fromLe_le_of_lt (w := 2) hb]

/-- A character is read off the front of a run of units in one way. -/
theorem utf16Units_append_inj {a b : Nat} {xs ys : Bytes} (ha : IsScalar a) (hb : IsScalar b)
    (h : utf16Units a ++ xs = utf16Units b ++ ys) : a = b ∧ xs = ys := by
  obtain ⟨hagap, hbgap⟩ := And.intro ha.2 hb.2
  obtain ⟨hasmall, ha'⟩ | ⟨ah, al, hah, hal, hasum, ha'⟩ := utf16Units_cases ha <;>
    obtain ⟨hbsmall, hb'⟩ | ⟨bh, bl, hbh, hbl, hbsum, hb'⟩ := utf16Units_cases hb <;>
    rw [ha', hb'] at h
  · obtain ⟨hunit, hrest⟩ := List.append_inj h (by simp)
    exact ⟨le_two_inj (by omega) (by omega) hunit, hrest⟩
  · rw [List.append_assoc] at h
    have hunit := le_two_inj (by omega) (by omega) (List.append_inj h (by simp)).1
    omega
  · rw [List.append_assoc] at h
    have hunit := le_two_inj (by omega) (by omega) (List.append_inj h (by simp)).1
    omega
  · rw [List.append_assoc, List.append_assoc] at h
    obtain ⟨hfirst, hrest⟩ := List.append_inj h (by simp)
    obtain ⟨hsecond, hrest⟩ := List.append_inj hrest (by simp)
    have hhigh := le_two_inj (by omega) (by omega) hfirst
    have hlow := le_two_inj (by omega) (by omega) hsecond
    exact ⟨by omega, hrest⟩

theorem utf16Units_ne_nil {cp : Nat} (h : IsScalar cp) : utf16Units cp ≠ [] := by
  obtain ⟨-, h⟩ | ⟨_, _, -, -, -, h⟩ := utf16Units_cases h <;> rw [h] <;> simp [le]

theorem flatMap_utf16Units_inj {as bs : List Nat} (ha : ∀ c ∈ as, IsScalar c)
    (hb : ∀ c ∈ bs, IsScalar c) (h : as.flatMap utf16Units = bs.flatMap utf16Units) : as = bs := by
  induction as generalizing bs with
  | nil =>
    cases bs with
    | nil => rfl
    | cons b bs =>
      rw [List.flatMap_nil, List.flatMap_cons] at h
      exact absurd (List.append_eq_nil_iff.1 h.symm).1 (utf16Units_ne_nil (hb b (by simp)))
  | cons a as ih =>
    cases bs with
    | nil =>
      rw [List.flatMap_nil, List.flatMap_cons] at h
      exact absurd (List.append_eq_nil_iff.1 h).1 (utf16Units_ne_nil (ha a (by simp)))
    | cons b bs =>
      rw [List.flatMap_cons, List.flatMap_cons] at h
      obtain ⟨rfl, hrest⟩ := utf16Units_append_inj (ha a (by simp)) (hb b (by simp)) h
      rw [ih (fun c hc => ha c (by simp [hc])) (fun c hc => hb c (by simp [hc])) hrest]

/-! ## Characters -/

/-- The loop of `utf8ToUtf16le`, for the characters. -/
def charsFrom : Nat → Bytes → List Nat
  | _, [] => []
  | skip + 1, _ :: cs => charsFrom skip cs
  | 0, c :: cs => scalar (utf8Point c cs).1 :: charsFrom (utf8Point c cs).2 cs

def chars (s : Bytes) : List Nat := charsFrom 0 s

theorem utf16Units_eq (cp : Nat) :
    utf16Units cp =
      if scalar cp < 0x10000 then le 2 (scalar cp)
      else le 2 (0xD800 + (scalar cp - 0x10000) >>> 10) ++
        le 2 (0xDC00 + (scalar cp - 0x10000 &&& 0x3FF)) := rfl

theorem utf16Units_scalar (cp : Nat) : utf16Units (scalar cp) = utf16Units cp := by
  rw [utf16Units_eq, utf16Units_eq cp, scalar_of_isScalar (isScalar_scalar cp)]

theorem utf16From_eq (skip : Nat) (s : Bytes) :
    utf16From skip s = (charsFrom skip s).flatMap utf16Units := by
  induction s generalizing skip with
  | nil => cases skip <;> rfl
  | cons c cs ih =>
    cases skip with
    | zero => simp only [utf16From, charsFrom, List.flatMap_cons, utf16Units_scalar, ih]
    | succ skip => exact ih skip

theorem utf8ToUtf16le_eq (s : Bytes) : utf8ToUtf16le s = (chars s).flatMap utf16Units :=
  utf16From_eq 0 s

theorem isScalar_charsFrom (skip : Nat) (s : Bytes) : ∀ c ∈ charsFrom skip s, IsScalar c := by
  induction s generalizing skip with
  | nil => cases skip <;> simp [charsFrom]
  | cons c cs ih =>
    cases skip with
    | zero =>
      intro x hx
      rcases List.mem_cons.1 hx with rfl | hx
      · exact isScalar_scalar _
      · exact ih _ x hx
    | succ skip => exact ih skip

/-! ## Case -/

/-- An ASCII letter in lower case. -/
def foldChar (c : Nat) : Nat := if 0x41 ≤ c ∧ c ≤ 0x5A then c + 0x20 else c

/-- A stored name with its ASCII letters in lower case. -/
def foldUtf16 : Bytes → Bytes
  | lo :: hi :: rest => (if hi = 0 then toLower lo else lo) :: hi :: foldUtf16 rest
  | rest => rest

theorem isScalar_foldChar {c : Nat} (h : IsScalar c) : IsScalar (foldChar c) := by
  unfold IsScalar foldChar at *
  split <;> omega

theorem foldUtf16_two {n : Nat} (hn : n < 2 ^ 16) (rest : Bytes) :
    foldUtf16 (le 2 n ++ rest) = le 2 (foldChar n) ++ foldUtf16 rest := by
  have hletter : foldChar n < 2 ^ 16 := by
    unfold foldChar
    split <;> omega
  by_cases hhigh : n < 256
  · have hzero : (n / 256).toUInt8 = 0 := by rw [Nat.div_eq_of_lt hhigh]; rfl
    have hzero' : (foldChar n / 256).toUInt8 = 0 := by
      have hlt : foldChar n < 256 := by
        unfold foldChar
        split <;> omega
      rw [Nat.div_eq_of_lt hlt]
      rfl
    have hlower : toLower n.toUInt8 = (foldChar n).toUInt8 := by
      have hall : ∀ k : Fin 256, toLower k.val.toUInt8 = (foldChar k.val).toUInt8 := by
        decide +kernel
      exact hall ⟨n, hhigh⟩
    simp only [le, List.cons_append, List.nil_append, foldUtf16, hzero, hzero', if_true, hlower]
  · have hsame : foldChar n = n := by
      unfold foldChar
      exact if_neg (by omega)
    have hnonzero : (n / 256).toUInt8 ≠ 0 := by
      intro h
      have hnat := congrArg UInt8.toNat h
      rw [UInt8.toNat_ofNat'] at hnat
      have hzero : n / 256 % 2 ^ 8 = 0 := hnat
      omega
    simp only [hsame, le, List.cons_append, List.nil_append, foldUtf16, if_neg hnonzero]

/-- Folding a character folds its units; half of a pair is not a letter. -/
theorem foldUtf16_units {c : Nat} (h : IsScalar c) (rest : Bytes) :
    foldUtf16 (utf16Units c ++ rest) = utf16Units (foldChar c) ++ foldUtf16 rest := by
  have hfold := isScalar_foldChar h
  obtain ⟨hsmall, hunits⟩ | ⟨high, low, hhigh, hlow, hsum, hunits⟩ := utf16Units_cases h
  · have hsmall' : foldChar c < 0x10000 := by
      unfold foldChar
      split <;> omega
    have hunits' : utf16Units (foldChar c) = le 2 (foldChar c) := by
      rw [utf16Units_eq, scalar_of_isScalar hfold, if_pos hsmall']
    rw [hunits, hunits', foldUtf16_two (by omega)]
  · have hsame : foldChar c = c := if_neg (by omega)
    have hhigh' : foldChar (0xD800 + high) = 0xD800 + high := if_neg (by omega)
    have hlow' : foldChar (0xDC00 + low) = 0xDC00 + low := if_neg (by omega)
    rw [hsame, hunits, List.append_assoc, foldUtf16_two (by omega), foldUtf16_two (by omega),
      hhigh', hlow', List.append_assoc]

theorem foldUtf16_flatMap {cs : List Nat} (h : ∀ c ∈ cs, IsScalar c) :
    foldUtf16 (cs.flatMap utf16Units) = (cs.map foldChar).flatMap utf16Units := by
  induction cs with
  | nil => rfl
  | cons c cs ih =>
    rw [List.flatMap_cons, foldUtf16_units (h c List.mem_cons_self), List.map_cons,
      List.flatMap_cons, ih fun c' hc' => h c' (List.mem_cons_of_mem _ hc')]

/-- Strings are stored alike, up to the case of ASCII letters, when they read alike. -/
theorem sameText_iff {a b : Bytes} :
    foldUtf16 (utf8ToUtf16le a) = foldUtf16 (utf8ToUtf16le b) ↔
      (chars a).map foldChar = (chars b).map foldChar := by
  have hscalar (s : Bytes) : ∀ c ∈ (chars s).map foldChar, IsScalar c := by
    intro c hc
    obtain ⟨c', hc', rfl⟩ := List.mem_map.1 hc
    exact isScalar_foldChar (isScalar_charsFrom 0 s c' hc')
  have hfold (s : Bytes) :
      foldUtf16 (utf8ToUtf16le s) = ((chars s).map foldChar).flatMap utf16Units := by
    rw [utf8ToUtf16le_eq]
    exact foldUtf16_flatMap (isScalar_charsFrom 0 s)
  rw [hfold a, hfold b]
  exact ⟨flatMap_utf16Units_inj (hscalar a) (hscalar b), fun h => by rw [h]⟩

end Pst
end Imap2Pst
