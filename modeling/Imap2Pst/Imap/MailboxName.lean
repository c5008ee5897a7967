import Imap2Pst.Std.Bytes

/-!
# Imap.MailboxName

`decodeModifiedUtf7`: mailbox names from modified UTF-7 (RFC 3501 5.1.3) to UTF-8.
-/

namespace Imap2Pst

open CxxStd

/-- The UTF-8 form of a code point. -/
def appendUtf8 (cp : Nat) : Bytes :=
  if cp < 0x80 then [cp.toUInt8]
  else if cp < 0x800 then [(0xC0 + cp / 64).toUInt8, (0x80 + cp % 64).toUInt8]
  else if cp < 0x10000 then
    [(0xE0 + cp / 4096).toUInt8, (0x80 + cp / 64 % 64).toUInt8, (0x80 + cp % 64).toUInt8]
  else
    [(0xF0 + cp / 262144).toUInt8, (0x80 + cp / 4096 % 64).toUInt8,
      (0x80 + cp / 64 % 64).toUInt8, (0x80 + cp % 64).toUInt8]

namespace Imap

/-- Modified BASE64: `','` replaces `'/'`. -/
def modifiedBase64Value (c : Byte) : Option Nat :=
  if 65 ≤ c && c ≤ 90 then some (c.toNat - 65)
  else if 97 ≤ c && c ≤ 122 then some (c.toNat - 97 + 26)
  else if 48 ≤ c && c ≤ 57 then some (c.toNat - 48 + 52)
  else if c = 43 then some 62
  else if c = 44 then some 63
  else none

/-- The variables of the shift-run loop; `high` is the pending high surrogate, 0 when none. -/
structure ShiftRun where
  out : Bytes
  bits : Nat := 0
  nbits : Nat := 0
  high : Nat := 0

/-- One UTF-16 unit of a shift run. -/
def ShiftRun.unit (r : ShiftRun) (unit : Nat) : ShiftRun :=
  if 0xD800 ≤ unit ∧ unit ≤ 0xDBFF then { r with high := unit }
  else if 0xDC00 ≤ unit ∧ unit ≤ 0xDFFF ∧ r.high ≠ 0 then
    { r with
      out := r.out ++ appendUtf8 (0x10000 + (r.high - 0xD800) * 1024 + (unit - 0xDC00))
      high := 0 }
  else { r with out := r.out ++ appendUtf8 unit, high := 0 }

/-- Decodes a run to UTF-8; the flag is `bad`, and what was decoded before the bad character stays
in `out`. -/
def decodeRun (r : ShiftRun) : Bytes → Bool × Bytes
  | [] => (false, r.out)
  | c :: cs =>
    match modifiedBase64Value c with
    | none => (true, r.out)
    | some v =>
      let bits := (r.bits * 64 + v) % 2 ^ 32
      let nbits := r.nbits + 6
      if nbits < 16 then decodeRun { r with bits, nbits } cs
      else
        let nbits := nbits - 16
        decodeRun ({ r with bits, nbits }.unit (bits / 2 ^ nbits % 65536)) cs

def decodeLoop : Nat → Bytes → Bytes → Bytes
  | 0, out, _ => out
  | _, out, [] => out
  | fuel + 1, out, c :: rest =>
    if c ≠ 38 then decodeLoop fuel (out ++ [c]) rest
    else if rest.head? = some 45 then decodeLoop fuel (out ++ [38]) rest.tail
    else
      let run := rest.takeWhile (· ≠ 45)
      let (bad, decoded) := decodeRun { out } run
      let out := if bad then decoded ++ 38 :: rest.take (run.length + 1) else decoded
      decodeLoop fuel out (rest.drop (run.length + 1))

/-- Every pass takes at least one octet of `name`, so its length is fuel enough. -/
def decodeModifiedUtf7 (name : Bytes) : Bytes := decodeLoop name.length [] name

example : decodeModifiedUtf7 (str "INBOX.&ANw-bersicht") = str "INBOX." ++ [0xC3, 0x9C] ++
    str "bersicht" := by decide

end Imap

end Imap2Pst
