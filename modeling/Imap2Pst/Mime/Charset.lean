import Imap2Pst.Std.Bytes

/-!
# Mime.Charset

Bytes to UTF-8, with recovery, translated from `mime/charset.cpp`. The converters of ICU are a
parameter: `Converter` takes the charset's name and the input, and is `none` where `ucnv_open` or
the conversion reports a failure. Whatever it does, `toUtf8` returns a text.
-/

namespace Imap2Pst
namespace Mime

open CxxStd

/-- `ucnv_open` and `ucnv_toAlgorithmic` of ICU, with malformed input substituted. -/
abbrev Converter := Bytes → Bytes → Option Bytes

def trimLower (s : Bytes) : Bytes :=
  let quoteOrSpace c := isSpace c || c = chr '"'
  lower (((s.dropWhile quoteOrSpace).reverse.dropWhile quoteOrSpace).reverse)

def appendUtf8 (cp : UInt32) : Bytes :=
  let tail (shift : UInt32) : Byte := (cp >>> shift &&& 0x3F ||| 0x80).toUInt8
  if cp < 0x80 then [cp.toUInt8]
  else if cp < 0x800 then [(cp >>> 6 ||| 0xC0).toUInt8, tail 0]
  else if cp < 0x10000 then [(cp >>> 12 ||| 0xE0).toUInt8, tail 6, tail 0]
  else [(cp >>> 18 ||| 0xF0).toUInt8, tail 12, tail 6, tail 0]

/-- The 32 positions where windows-1252 differs from ISO-8859-1. -/
def kCp1252High : List UInt32 := [
  0x20AC, 0x0081, 0x201A, 0x0192, 0x201E, 0x2026, 0x2020, 0x2021,
  0x02C6, 0x2030, 0x0160, 0x2039, 0x0152, 0x008D, 0x017D, 0x008F,
  0x0090, 0x2018, 0x2019, 0x201C, 0x201D, 0x2022, 0x2013, 0x2014,
  0x02DC, 0x2122, 0x0161, 0x203A, 0x0153, 0x009D, 0x017E, 0x0178]

/-- How many octets follow the first octet `c` of a character, and the bits `c` contributes. -/
def leadOctet (c : Byte) : Option (Nat × UInt32) :=
  if c &&& 0xE0 = 0xC0 then some (1, (c &&& 0x1F).toUInt32)
  else if c &&& 0xF0 = 0xE0 then some (2, (c &&& 0x0F).toUInt32)
  else if c &&& 0xF8 = 0xF0 then some (3, (c &&& 0x07).toUInt32)
  else none

/-- The code point the next `extra` octets complete, if they are all continuations. -/
def continuation : Nat → UInt32 → Bytes → Option UInt32
  | 0, cp, _ => some cp
  | _ + 1, _, [] => none
  | extra + 1, cp, c :: cs =>
    if c &&& 0xC0 = 0x80 then continuation extra (cp <<< 6 ||| (c &&& 0x3F).toUInt32) cs else none

/-- Over-long forms, surrogates and what lies past the last plane are rejected. -/
def acceptable (extra : Nat) (cp : UInt32) : Bool :=
  !(extra = 1 && cp < 0x80 || extra = 2 && cp < 0x800 || extra = 3 && cp < 0x10000 ||
    0x10FFFF < cp || 0xD800 ≤ cp && cp ≤ 0xDFFF)

/-- The loop of `isValidUtf8`; the first `skip` octets belong to a character already read. -/
def isValidUtf8From (skip : Nat) : Bytes → Bool
  | [] => true
  | c :: cs =>
    match skip with
    | skip + 1 => isValidUtf8From skip cs
    | 0 =>
      if c < 0x80 then isValidUtf8From 0 cs
      else match leadOctet c with
        | none => false
        | some (extra, bits) =>
          match continuation extra bits cs with
          | none => false
          | some cp => acceptable extra cp && isValidUtf8From extra cs

def isValidUtf8 (bytes : Bytes) : Bool := isValidUtf8From 0 bytes

def windows1252ToUtf8 (input : Bytes) : Bytes :=
  input.flatMap fun c =>
    if c < 0x80 then [c]
    else if c < 0xA0 then appendUtf8 (kCp1252High.getD (c - 0x80).toNat 0)
    else appendUtf8 c.toUInt32

/-- The input itself where it is UTF-8, otherwise read as windows-1252, which maps every byte. -/
def recoverUtf8 (input : Bytes) : Bytes :=
  if isValidUtf8 input then input else windows1252ToUtf8 input

def utf8Names : List Bytes :=
  ["", "utf-8", "utf8", "us-ascii", "ascii", "ansi_x3.4-1968", "default"].map str

def latin1Names : List Bytes :=
  ["windows-1252", "cp1252", "iso-8859-1", "latin1", "iso8859-1", "8859-1"].map str

def toUtf8 (icu : Converter) (input charset : Bytes) : Bytes :=
  if input = [] then []
  else
    let name := trimLower charset
    if name ∈ utf8Names then recoverUtf8 input
    else if name ∈ latin1Names then windows1252ToUtf8 input
    else (icu (cstr name) input).getD (recoverUtf8 input)

@[simp] theorem toUtf8_nil (icu : Converter) (charset : Bytes) : toUtf8 icu [] charset = [] := rfl

/-- A byte string in ASCII is left as it is, under any name of UTF-8. -/
theorem isValidUtf8_of_ascii {s : Bytes} (h : ∀ c ∈ s, c < 0x80) : isValidUtf8 s = true := by
  unfold isValidUtf8
  induction s with
  | nil => rfl
  | cons c cs ih =>
    have hc := h c (by simp)
    simp only [isValidUtf8From, hc, if_true]
    exact ih fun d hd => h d (by simp [hd])

end Mime
end Imap2Pst
