import Imap2Pst.Std.Unicode
import Imap2Pst.Std.LittleEndian

/-!
# Std.Utf16

UTF-16 in little-endian octets: when it is well formed, and what it reads as.

* `utf16le`        — the encoding of a text.
* `WellFormed16`   — full units, and surrogates in pairs only.
* `decodeUtf16le`  — the text back, where there is one.
-/

namespace CxxStd

def highSurrogate (u : Nat) : Bool := 0xD800 ≤ u && u ≤ 0xDBFF

def lowSurrogate (u : Nat) : Bool := 0xDC00 ≤ u && u ≤ 0xDFFF

/-- The units of an octet string; an octet left over is dropped. -/
def codeUnits : Bytes → List Nat
  | lo :: hi :: rest => (lo.toNat + 256 * hi.toNat) :: codeUnits rest
  | _ => []

/-- A high surrogate stands before a low one, and nowhere else. -/
def paired : List Nat → Bool
  | [] => true
  | [u] => !highSurrogate u && !lowSurrogate u
  | u :: v :: us =>
    if highSurrogate u then lowSurrogate v && paired us else !lowSurrogate u && paired (v :: us)

structure WellFormed16 (s : Bytes) : Prop where
  even : s.length % 2 = 0
  pairs : paired (codeUnits s) = true

def decodeUnits : List Nat → Option (List Char)
  | [] => some []
  | [u] => if highSurrogate u || lowSurrogate u then none else some [Char.ofNat u]
  | u :: v :: us =>
    if highSurrogate u then
      if lowSurrogate v then
        (decodeUnits us).map (Char.ofNat (0x10000 + (u - 0xD800) * 0x400 + (v - 0xDC00)) :: ·)
      else none
    else if lowSurrogate u then none
    else (decodeUnits (v :: us)).map (Char.ofNat u :: ·)

def decodeUtf16le (s : Bytes) : Option (List Char) :=
  if s.length % 2 = 0 then decodeUnits (codeUnits s) else none

def utf16le (cs : List Char) : Bytes := (cs.flatMap utf16).flatMap (le 2)

@[simp] theorem utf16le_nil : utf16le [] = [] := rfl

@[simp] theorem utf16le_cons (c : Char) (cs : List Char) :
    utf16le (c :: cs) = (utf16 c).flatMap (le 2) ++ utf16le cs := by
  simp [utf16le]

@[simp] theorem utf16le_append (cs ds : List Char) :
    utf16le (cs ++ ds) = utf16le cs ++ utf16le ds := by
  simp [utf16le]

theorem length_flatMap_le (us : List Nat) : (us.flatMap (le 2)).length = 2 * us.length := by
  induction us with
  | nil => rfl
  | cons u us ih =>
    rw [List.flatMap_cons, List.length_append, le_length, ih, List.length_cons]
    omega

theorem codeUnits_flatMap_le {us : List Nat} (h : ∀ u ∈ us, u < 2 ^ 16) :
    codeUnits (us.flatMap (le 2)) = us := by
  induction us with
  | nil => rfl
  | cons u us ih =>
    have hu := h u List.mem_cons_self
    have hunit : u.toUInt8.toNat + 256 * (u / 256).toUInt8.toNat = u := by
      rw [UInt8.toNat_ofNat', UInt8.toNat_ofNat']
      omega
    show (u.toUInt8.toNat + 256 * (u / 256).toUInt8.toNat) :: codeUnits (us.flatMap (le 2)) = _
    rw [hunit, ih fun v hv => h v (List.mem_cons_of_mem _ hv)]

theorem codeUnits_utf16le (cs : List Char) : codeUnits (utf16le cs) = cs.flatMap utf16 := by
  refine codeUnits_flatMap_le fun u hu => ?_
  obtain ⟨c, -, hu⟩ := List.mem_flatMap.1 hu
  exact utf16_lt hu

/-- One unit that is no surrogate, or a pair. -/
theorem utf16_cases (c : Char) :
    (utf16 c = [c.toNat] ∧ highSurrogate c.toNat = false ∧ lowSurrogate c.toNat = false) ∨
      ∃ u v, utf16 c = [u, v] ∧ highSurrogate u = true ∧ lowSurrogate v = true ∧
        0x10000 + (u - 0xD800) * 0x400 + (v - 0xDC00) = c.toNat := by
  have hrange := char_range c
  unfold utf16 highSurrogate lowSurrogate
  split
  · refine .inl ⟨rfl, ?_, ?_⟩
    · simp only [Bool.and_eq_false_iff, decide_eq_false_iff_not]
      omega
    · simp only [Bool.and_eq_false_iff, decide_eq_false_iff_not]
      omega
  · refine .inr ⟨_, _, rfl, ?_, ?_, ?_⟩
    · simp only [Bool.and_eq_true, decide_eq_true_eq]
      omega
    · simp only [Bool.and_eq_true, decide_eq_true_eq]
      omega
    · omega

theorem paired_utf16_append (c : Char) (us : List Nat) :
    paired (utf16 c ++ us) = paired us := by
  obtain ⟨h, hhigh, hlow⟩ | ⟨u, v, h, hhigh, hlow, -⟩ := utf16_cases c
  · rw [h]
    cases us with
    | nil => simp [paired, hhigh, hlow]
    | cons v us => simp [paired, hhigh, hlow]
  · rw [h]
    simp [paired, hhigh, hlow]

theorem decodeUnits_utf16_append (c : Char) (us : List Nat) :
    decodeUnits (utf16 c ++ us) = (decodeUnits us).map (c :: ·) := by
  obtain ⟨h, hhigh, hlow⟩ | ⟨u, v, h, hhigh, hlow, hsum⟩ := utf16_cases c
  · rw [h]
    cases us with
    | nil => simp [decodeUnits, hhigh, hlow]
    | cons v us => simp [decodeUnits, hhigh, hlow]
  · rw [h]
    simp [decodeUnits, hhigh, hlow, hsum]

theorem wellFormed16_utf16le (cs : List Char) : WellFormed16 (utf16le cs) := by
  refine ⟨by rw [utf16le, length_flatMap_le, Nat.mul_mod_right], ?_⟩
  rw [codeUnits_utf16le]
  induction cs with
  | nil => rfl
  | cons c cs ih => rw [List.flatMap_cons, paired_utf16_append, ih]

theorem decodeUtf16le_utf16le (cs : List Char) : decodeUtf16le (utf16le cs) = some cs := by
  rw [decodeUtf16le, if_pos (wellFormed16_utf16le cs).even, codeUnits_utf16le]
  induction cs with
  | nil => rfl
  | cons c cs ih => rw [List.flatMap_cons, decodeUnits_utf16_append, ih, Option.map_some]

end CxxStd
