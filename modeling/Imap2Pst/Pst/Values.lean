import Imap2Pst.Pst.Tags

/-!
# Pst.Values

How values are encoded, translated from the format helpers of `pst/ltp.cpp`.

* `utf8ToUtf16le` — the form of every Unicode string on disk.
* `unixToFiletime` — a point in time.
-/

namespace Imap2Pst
namespace Pst

open CxxStd

/-- What the lead octet says: the bits of the code point in it, and how many octets follow. -/
def utf8Lead (c : Byte) : Nat × Nat :=
  if c < 0x80 then (c.toNat, 0)
  else if c &&& 0xE0 = 0xC0 then ((c &&& 0x1F).toNat, 1)
  else if c &&& 0xF0 = 0xE0 then ((c &&& 0x0F).toNat, 2)
  else if c &&& 0xF8 = 0xF0 then ((c &&& 0x07).toNat, 3)
  else (0xFFFD, 0)

/-- The octets that follow a lead; `none` when one of them is not a continuation. -/
def utf8Rest : Nat → Nat → Bytes → Option Nat
  | 0, cp, _ => some cp
  | _ + 1, _, [] => none
  | extra + 1, cp, c :: cs =>
    if c &&& 0xC0 ≠ 0x80 then none else utf8Rest extra (cp <<< 6 ||| (c &&& 0x3F).toNat) cs

/-- The code point at the front, and how many octets after the first belong to it. -/
def utf8Point (c : Byte) (cs : Bytes) : Nat × Nat :=
  let (cp, extra) := utf8Lead c
  if cs.length < extra then (0xFFFD, 0)
  else
    match utf8Rest extra cp cs with
    | some cp => (cp, extra)
    | none => (0xFFFD, 0)

def utf16Units (cp : Nat) : Bytes :=
  let cp := if 0x10FFFF < cp ∨ 0xD800 ≤ cp ∧ cp ≤ 0xDFFF then 0xFFFD else cp
  if cp < 0x10000 then le 2 cp
  else
    let cp := cp - 0x10000
    le 2 (0xD800 + cp >>> 10) ++ le 2 (0xDC00 + (cp &&& 0x3FF))

/-- The loop of `utf8ToUtf16le`, with `skip` octets of a character still to pass over. -/
def utf16From : Nat → Bytes → Bytes
  | _, [] => []
  | skip + 1, _ :: cs => utf16From skip cs
  | 0, c :: cs =>
    let (cp, extra) := utf8Point c cs
    utf16Units cp ++ utf16From extra cs

def utf8ToUtf16le (s : Bytes) : Bytes := utf16From 0 s

/-- The octets of a string value. -/
def stringBytes (tag : Nat) (utf8 : Bytes) : Bytes :=
  if tagType tag = kPtString8 then utf8 else utf8ToUtf16le utf8

/-- 100 ns ticks since 1601, in 64 bits. -/
def unixToFiletime (unixSeconds : Int) : Nat :=
  -- the seconds between 1601 and 1970
  if unixSeconds ≤ -11644473600 then 0
  else (unixSeconds + 11644473600).toNat * 10000000 % 2 ^ 64

end Pst
end Imap2Pst
