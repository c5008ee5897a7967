import Imap2Pst.Core.Message
import Imap2Pst.Mime.Charset
import Imap2Pst.Mime.Encodings
import Imap2Pst.Std.Scanf

/-!
# Mime.Headers

RFC 822 header blocks, RFC 2045 field parameters with their RFC 2231 extensions, RFC 2047 encoded
words and address lists, translated from `mime/headers.cpp`. Every function is total.
-/

namespace Imap2Pst
namespace Mime

open CxxStd

structure HeaderField where
  name : Bytes
  value : Bytes
  deriving DecidableEq, Repr

/-! ## Quoting -/

/-- Undoes backslash escapes; the escape in front of the last octet is not one. -/
def unescape : Bytes → Bytes
  | [] => []
  | [c] => [c]
  | c :: d :: s => if c = chr '\\' then d :: unescape s else c :: unescape (d :: s)

def unquote (s : Bytes) : Bytes :=
  let t := trim s
  if t.length < 2 ∨ t.head? ≠ some (chr '"') ∨ t.getLast? ≠ some (chr '"') then t
  else unescape (slice t 1 (t.length - 2))

/-- Where `splitOutsideQuotes` stands. -/
structure SplitState where
  inQuotes : Bool := false
  inAngle : Bool := false
  commentDepth : Nat := 0

/-- The loop of `splitOutsideQuotes`; `current` is the piece being read. -/
def splitFrom (sep : Byte) (st : SplitState) (current : Bytes) : Bytes → List Bytes
  | [] => [current]
  | c :: cs =>
    if st.inQuotes then
      match cs with
      | d :: ds =>
        if c = chr '\\' then splitFrom sep st (current ++ [c, d]) ds
        else splitFrom sep { st with inQuotes := c ≠ chr '"' } (current ++ [c]) (d :: ds)
      | [] => [current ++ [c]]
    else if 0 < st.commentDepth then
      -- comments are not part of the value
      match cs with
      | d :: ds =>
        if c = chr '\\' then splitFrom sep st current ds
        else
          let depth := st.commentDepth + if c = chr '(' then 1 else 0
          let depth := depth - if c = chr ')' then 1 else 0
          splitFrom sep { st with commentDepth := depth } current (d :: ds)
      | [] => [current]
    else if c = chr '"' then splitFrom sep { st with inQuotes := true } (current ++ [c]) cs
    else if c = chr '(' then splitFrom sep { st with commentDepth := 1 } current cs
    else if c = chr '<' then splitFrom sep { st with inAngle := true } (current ++ [c]) cs
    else if c = chr '>' then splitFrom sep { st with inAngle := false } (current ++ [c]) cs
    else if c = sep ∧ ¬ st.inAngle then current :: splitFrom sep st [] cs
    else splitFrom sep st (current ++ [c]) cs

/-- Splits on `sep`, outside quoted strings, comments and angle brackets. -/
def splitOutsideQuotes (s : Bytes) (sep : Byte) : List Bytes := splitFrom sep {} [] s

/-! ## Header blocks -/

/-- The lines of a text that starts at offset `i`, each without its `'\n'` and with the offset of
the line and of what follows it; `line` is the line being read, from `start`. -/
def linesFrom (start i : Nat) (line : Bytes) : Bytes → List (Nat × Bytes × Nat)
  | [] => if line = [] then [] else [(start, line, i)]
  | c :: cs =>
    if c = 10 then (start, line, i + 1) :: linesFrom (i + 1) (i + 1) [] cs
    else linesFrom start (i + 1) (line ++ [c]) cs

def stripLineCr (line : Bytes) : Bytes :=
  if line.getLast? = some 13 then line.dropLast else line

/-- The loop of `parseHeaderBlock`: `field` is the one being read, `i` where the loop stands. -/
def headerLines (field : Option HeaderField) (i : Nat) :
    List (Nat × Bytes × Nat) → List HeaderField × Nat
  | [] => (field.toList, i)
  | (start, line, next) :: rest =>
    let line := stripLineCr line
    match line with
    -- a blank line: the body starts after it
    | [] => (field.toList, next)
    | c :: _ =>
      if c = chr ' ' || c = chr '\t' then
        -- a folded continuation; the fold itself becomes a single space
        headerLines (field.map fun f => { f with value := f.value ++ chr ' ' :: trim line }) next
          rest
      else match find line (chr ':') 0 with
        -- not a header line at all: the body starts with it
        | none => (field.toList, start)
        | some colon =>
          let out := headerLines
            (some ⟨trim (line.take colon), trim (line.drop (colon + 1))⟩) next rest
          (field.toList ++ out.1, out.2)

/-- The fields of the block `source` starts with, and the offset of the body. -/
def parseHeaderBlock (source : Bytes) : List HeaderField × Nat :=
  headerLines none 0 (linesFrom 0 0 [] source)

/-- The value of the first field of that name, empty when there is none. -/
def headerValue (fields : List HeaderField) (name : Bytes) : Bytes :=
  match fields.find? fun f => lower f.name = lower name with
  | some f => f.value
  | none => []

/-! ## Encoded words -/

section

variable (icu : Converter)

def toUpper (c : Byte) : Byte := if 97 ≤ c && c ≤ 122 then c - 32 else c

/-- The encoded word at the start of `s`, decoded, and how many octets it takes up. -/
def decodeOneWord (s : Bytes) : Option (Bytes × Nat) := do
  let charsetEnd ← find s (chr '?') 2
  let encEnd ← find s (chr '?') (charsetEnd + 1)
  if encEnd ≠ charsetEnd + 2 then none
  let textEnd ← findSub s (str "?=") (encEnd + 1)
  let charset := slice s 2 (charsetEnd - 2)
  -- a language tag is cut off
  let charset := charset.take ((find charset (chr '*') 0).getD charset.length)
  let encoding := toUpper (s.getD (charsetEnd + 1) 0)
  let text := slice s (encEnd + 1) (textEnd - encEnd - 1)
  if encoding = chr 'B' then some (toUtf8 icu (decodeBase64 text) charset, textEnd + 2)
  else if encoding = chr 'Q' then
    some (toUtf8 icu (decodeQuotedPrintable true text) charset, textEnd + 2)
  else none

def isEncodedWordStart (s : Bytes) : Bool := str "=?" <+: s

/-- The loop of `decodeEncodedWords`: `skip` octets belong to a word already decoded, `pending`
spaces are held back, `encoded` says whether the last thing written was an encoded word. -/
def decodeWordsFrom (skip pending : Nat) (encoded : Bool) : Bytes → Bytes
  | [] => List.replicate pending (chr ' ')
  | c :: cs =>
    match skip with
    | skip + 1 => decodeWordsFrom skip pending encoded cs
    | 0 =>
      match (if isEncodedWordStart (c :: cs) then decodeOneWord icu (c :: cs) else none) with
      | some (decoded, consumed) =>
        -- white space between two encoded words is not part of the text
        (if encoded then [] else List.replicate pending (chr ' ')) ++ decoded ++
          decodeWordsFrom (consumed - 1) 0 true cs
      | none =>
        if isSpace c then decodeWordsFrom 0 (pending + 1) encoded cs
        else List.replicate pending (chr ' ') ++ c :: decodeWordsFrom 0 0 false cs

def decodeEncodedWords (text : Bytes) : Bytes := decodeWordsFrom icu 0 0 false text

def headerText (raw : Bytes) : Bytes := decodeEncodedWords icu (recoverUtf8 raw)

/-! ## Field parameters -/

def fieldToken (value : Bytes) : Bytes :=
  match splitOutsideQuotes value (chr ';') with
  | [] => []
  | part :: _ => trim part

/-- What `fieldParameter` has collected. -/
structure Parameter where
  /-- `name*0`, `name*1`, ..., in the order of their numbers. -/
  continuations : List (Int × Bytes) := []
  simple : Bytes := []
  extended : Bool := false

/-- `continuations[index] = piece` on a map that is kept in order. -/
def setPiece (index : Int) (piece : Bytes) : List (Int × Bytes) → List (Int × Bytes)
  | [] => [(index, piece)]
  | (k, old) :: rest =>
    if index < k then (index, piece) :: (k, old) :: rest
    else if index = k then (index, piece) :: rest
    else (k, old) :: setPiece index piece rest

/-- One piece of the field's value. -/
def addPiece (want : Bytes) (st : Parameter) (part : Bytes) : Parameter :=
  let part := trim part
  match find part (chr '=') 0 with
  | none => st
  | some eq =>
    let key := lower (trim (part.take eq))
    let val := part.drop (eq + 1)
    let extended := key.getLast? = some (chr '*')
    let key := if extended then key.dropLast else key
    let star := find key (chr '*') 0
    let index : Int := match star with
      | some star => atoi (key.drop (star + 1))
      | none => -1
    let key := key.take (star.getD key.length)
    if key ≠ want then st
    else if 0 ≤ index then
      { st with
        continuations := setPiece index (unquote val) st.continuations,
        extended := st.extended || extended }
    else { st with simple := unquote val, extended := extended }

/-- `strtol` in base 16 of two octets, as a byte. -/
def hexByte (d e : Byte) : Byte :=
  let low := (hexValue e).getD 0
  if isSpace d || d = chr '+' then low
  else if d = chr '-' then 0 - low
  else match hexValue d, hexValue e with
    | none, _ => 0
    | some hi, none => hi
    | some hi, some lo => hi <<< 4 ||| lo

/-- `%xx` escapes undone; what follows the `'%'` goes through `strtol`. -/
def percentDecode : Bytes → Bytes
  | [] => []
  | [c] => [c]
  | [c, d] => [c, d]
  | c :: d :: e :: s =>
    if c = chr '%' then hexByte d e :: percentDecode s else c :: percentDecode (d :: e :: s)

def fieldParameter (value name : Bytes) : Bytes :=
  let parts := splitOutsideQuotes value (chr ';')
  let st := parts.tail.foldl (addPiece (lower name)) {}
  let joined := st.simple ++ st.continuations.flatMap Prod.snd
  if joined = [] then []
  else if st.extended then
    -- charset'language'percent-encoded-text
    let first := find joined 39 0
    let second := first.bind fun i => find joined 39 (i + 1)
    match first, second with
    | some i, some j => toUtf8 icu (percentDecode (joined.drop (j + 1))) (joined.take i)
    | _, _ => toUtf8 icu (percentDecode joined) []
  else decodeEncodedWords icu joined

/-! ## Address lists -/

/-- A member of the list with its group's label taken off, if it has one. -/
def stripLabel (part : Bytes) : Bytes :=
  match find part (chr ':') 0 with
  | none => part
  | some colon =>
    let label := part.take colon
    if chr '@' ∈ label ∨ chr '<' ∈ label ∨ chr '"' ∈ label then part
    else trim (part.drop (colon + 1))

/-- The groups of an address list opened up, their members joined by `", "`. -/
def flattenGroups (value : Bytes) : Bytes :=
  (splitOutsideQuotes value (chr ';')).foldl (fun flattened group =>
    let part := trim group
    if part = [] then flattened
    else
      let part := stripLabel part
      if part = [] then flattened
      else if flattened = [] then part
      else flattened ++ str ", " ++ part) []

/-- One member of an address list; `none` when it names nobody. -/
def parseMailbox (raw : Bytes) : Option Mailbox :=
  let part := trim raw
  if part = [] then none
  else
    let token : Mailbox :=
      if chr '@' ∈ part ∨
          chr ' ' ∉ part ∧ part.head? ≠ some (chr '"') ∧ part.take 2 ≠ str "=?" then
        { email := part }
      else { name := headerText icu (unquote part) }
    let mb : Mailbox :=
      match rfind part (chr '<'), rfind part (chr '>') with
      | some opening, some close =>
        if opening < close then
          { email := trim (slice part (opening + 1) (close - opening - 1)),
            name := headerText icu (unquote (trim (part.take opening))) }
        else token
      | _, _ => token
    if mb.email = [] ∧ mb.name = [] then none
    else if mb.name = mb.email then some { mb with name := [] }
    else some mb

def parseAddressList (value : Bytes) : List Mailbox :=
  (splitOutsideQuotes (flattenGroups value) (chr ',')).filterMap (parseMailbox icu)

end

end Mime
end Imap2Pst
