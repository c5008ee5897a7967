import Imap2Pst.Std.Bytes

/-!
# Mime.Encodings

The content transfer encodings, translated from `mime/encodings.cpp`. Decoding never fails:
what is not part of the encoding is skipped (`decodeBase64`) or kept as it stands
(`decodeQuotedPrintable`).
-/

namespace Imap2Pst
namespace Mime

open CxxStd

def base64Value (c : Byte) : Option UInt32 :=
  if chr 'A' ≤ c && c ≤ chr 'Z' then some (c - chr 'A').toUInt32
  else if chr 'a' ≤ c && c ≤ chr 'z' then some ((c - chr 'a').toUInt32 + 26)
  else if chr '0' ≤ c && c ≤ chr '9' then some ((c - chr '0').toUInt32 + 52)
  else if c = chr '+' then some 62
  else if c = chr '/' then some 63
  else none

def hexValue (c : Byte) : Option Byte :=
  if chr '0' ≤ c && c ≤ chr '9' then some (c - chr '0')
  else if chr 'a' ≤ c && c ≤ chr 'f' then some (c - chr 'a' + 10)
  else if chr 'A' ≤ c && c ≤ chr 'F' then some (c - chr 'A' + 10)
  else none

/-- The loop of `decodeBase64`; `pending` of the `bits` read are not written yet. -/
def decodeBase64From (bits : UInt32) (pending : Nat) : Bytes → Bytes
  | [] => []
  | c :: cs =>
    -- padding: nothing follows that matters
    if c = chr '=' then []
    else match base64Value c with
      -- white space, newlines, or junk
      | none => decodeBase64From bits pending cs
      | some v =>
        let bits := bits <<< 6 ||| v
        let pending := pending + 6
        if 8 ≤ pending then
          (bits >>> (pending - 8).toUInt32).toUInt8 :: decodeBase64From bits (pending - 8) cs
        else decodeBase64From bits pending cs

def decodeBase64 (input : Bytes) : Bytes := decodeBase64From 0 0 input

def decodeQuotedPrintable (underscoreIsSpace : Bool) : Bytes → Bytes
  | [] => []
  | c :: cs =>
    if c = chr '_' && underscoreIsSpace then chr ' ' :: decodeQuotedPrintable underscoreIsSpace cs
    else if c ≠ chr '=' then c :: decodeQuotedPrintable underscoreIsSpace cs
    else match cs with
      -- a trailing '=' is dropped
      | [] => []
      | [d] =>
        if d = 10 || d = 13 then []
        else chr '=' :: decodeQuotedPrintable underscoreIsSpace [d]
      | d :: e :: es =>
        -- soft line breaks
        if d = 10 then decodeQuotedPrintable underscoreIsSpace (e :: es)
        else if d = 13 then
          if e = 10 then decodeQuotedPrintable underscoreIsSpace es
          else decodeQuotedPrintable underscoreIsSpace (e :: es)
        else match hexValue d, hexValue e with
          | some hi, some lo => (hi <<< 4 ||| lo) :: decodeQuotedPrintable underscoreIsSpace es
          -- not a valid escape: the '=' is kept
          | _, _ => chr '=' :: decodeQuotedPrintable underscoreIsSpace (d :: e :: es)

def decodeBody (body encoding : Bytes) : Bytes :=
  let e := lower encoding
  if e = str "base64" then decodeBase64 body
  else if e = str "quoted-printable" then decodeQuotedPrintable false body
  else body

example : decodeBody (str "aGVsbG8=\n") (str "BASE64") = str "hello" := by decide +kernel

end Mime
end Imap2Pst
