import Imap2Pst.Core.Message
import Imap2Pst.Imap.MailboxName
import Imap2Pst.Std.Reply
import Imap2Pst.Std.Scanf
import Imap2Pst.Std.Time

/-!
# Imap.Parse

The server-response parsers of `imap_parse.cpp`. Cursors are `std::size_t` values: a literal
length is added to one modulo `2^64`, so a cursor can be sent backwards and a parser can throw
`std::out_of_range` or loop for ever. Each loop carries fuel, and running out of it is `hangs`.
-/

namespace Imap2Pst

open CxxStd

/-- What the client throws: an `ImapError`, or an exception of the standard library. -/
inductive ClientExn where
  | imapError (what : String)
  | outOfRange (what : String)
  deriving DecidableEq, Repr

def ClientExn.what : ClientExn → String
  | imapError w => w
  | outOfRange w => w

structure MessageMeta where
  uid : UInt32 := 0
  flags : UInt32 := kFlagNone
  keywords : List Bytes := []
  internalDate : Int := 0
  size : UInt32 := 0
  deriving DecidableEq, Repr

structure FetchedBody where
  uid : UInt32 := 0
  rfc822 : Bytes := []
  deriving DecidableEq, Repr

namespace Imap

/-! ## Tokens -/

def isBlank (c : Byte) : Bool := c = 32 || c = 9

def skipSpace (s : Bytes) (i : Nat) : Nat := i + ((s.drop i).takeWhile isBlank).length

/-- The body of a quoted string after its opening quote, and how many octets it takes up with its
closing quote. -/
def readQuoted : Bytes → Bytes × Nat
  | [] => ([], 0)
  | c :: s =>
    if c = 34 then ([], 1)
    else
      match s with
      | [] => ([c], 1)
      | d :: s' =>
        if c = 92 then
          let (out, n) := readQuoted s'
          (d :: out, n + 2)
        else
          let (out, n) := readQuoted (d :: s')
          (c :: out, n + 1)

def isAtomChar (c : Byte) : Bool :=
  !(c = 32 || c = 13 || c = 10 || c = 40 || c = 41)

/-- Reads a quoted string, a literal introduced by `{n}`, or a bare atom at `i`; `none` is the
source's `false`. The cursor is returned in both cases. -/
def readAstring (s : Bytes) (i : Nat) : Option Bytes × Nat :=
  let i := skipSpace s i
  match s.drop i with
  | [] => (none, i)
  | c :: t =>
    if c = 34 then
      let (out, n) := readQuoted t
      (some out, i + 1 + n)
    else if c = 123 then
      match find s 125 i with
      | none => (none, i)
      | some close =>
        let n := strtoul (cstr t)
        let start := close + 1
        let start := if (s.drop start).head? = some 13 then start + 1 else start
        let start := if (s.drop start).head? = some 10 then start + 1 else start
        if s.length < addSize start n then (none, i)
        else (some (slice s start n), addSize start n)
    else
      let out := (c :: t).takeWhile isAtomChar
      if out = [] then (none, i) else (some out, i + out.length)

/-! ## Lines -/

def stripCr (line : Bytes) : Bytes :=
  if line.getLast? = some 13 then line.dropLast else line

/-- The value of the `{n}` that ends `line`, when there is one. -/
def trailingLiteral (line : Bytes) : Option Nat :=
  if line.getLast? = some 125 then
    match rfind line 123 with
    | none => none
    | some brace =>
      let digits := slice line (brace + 1) (line.length - brace - 2)
      if digits = [] ∨ ¬ digits.all isDigit then none else some (strtoul digits)
  else none

/-- The end of the line that starts at `i`. -/
def lineEnd (response : Bytes) (i : Nat) : Nat := (find response 10 i).getD response.length

/-- The inner loop of `splitLines`: a trailing `{n}` means the next `n` bytes belong to the
line. -/
def attachLiterals (response : Bytes) : Nat → Bytes → Nat → Reply ClientExn (Bytes × Nat)
  | 0, _, _ => .hangs
  | fuel + 1, line, i =>
    match trailingLiteral line with
    | none => .ok (line, i)
    | some n =>
      if response.length < addSize i n then .ok (line, i)
      else if response.length < i then .throws (.outOfRange "basic_string::substr")
      else
        let line := line ++ [13, 10] ++ slice response i n
        let i := addSize i n
        let restEol := lineEnd response i
        let rest := stripCr (slice response i (restEol - i))
        attachLiterals response fuel (line ++ rest) (restEol + 1)

/-- The passes either loop of `splitLines` is given. A run in which no sum wraps makes at most one
for each octet, since every pass moves the cursor on. -/
def lineFuel (response : Bytes) : Nat := 4 * response.length + 8

def splitLinesLoop (response : Bytes) : Nat → Nat → Reply ClientExn (List Bytes)
  | 0, _ => .hangs
  | fuel + 1, i =>
    if i < response.length then
      let eol := lineEnd response i
      let line := stripCr (slice response i (eol - i))
      (attachLiterals response (lineFuel response) line (eol + 1)).bind fun (line, i) =>
        (splitLinesLoop response fuel i).map (line :: ·)
    else .ok []

/-- Splits a response into lines, keeping literal payloads attached to the line that introduced
them. -/
def splitLines (response : Bytes) : Reply ClientExn (List Bytes) :=
  splitLinesLoop response (lineFuel response) 0

/-! ## Flags and dates -/

/-- The tokens `operator>>` reads one after the other; `cur` is the one being read. -/
def tokens (cur : Bytes) : Bytes → List Bytes
  | [] => if cur = [] then [] else [cur]
  | c :: cs =>
    if isSpace c then if cur = [] then tokens [] cs else cur :: tokens [] cs
    else tokens (cur ++ [c]) cs

def stripParens (tok : Bytes) : Bytes :=
  ((tok.dropWhile (· = 40)).reverse.dropWhile (· = 41)).reverse

/-- The bit of a system flag, `none` for a keyword. -/
def systemFlag (tok : Bytes) : Option UInt32 :=
  let l := lower tok
  if l = str "\\seen" then some kFlagSeen
  else if l = str "\\answered" then some kFlagAnswered
  else if l = str "\\flagged" then some kFlagFlagged
  else if l = str "\\deleted" then some kFlagDeleted
  else if l = str "\\draft" then some kFlagDraft
  else if l = str "\\recent" then some kFlagRecent
  else none

def parseFlags (flagList : Bytes) : UInt32 × List Bytes :=
  let toks := ((tokens [] flagList).map stripParens).filter (· ≠ [])
  (toks.foldl (fun flags tok => flags ||| (systemFlag tok).getD 0) kFlagNone,
    toks.filter fun tok => systemFlag tok = none)

def monthNames : List Bytes :=
  [str "jan", str "feb", str "mar", str "apr", str "may", str "jun",
    str "jul", str "aug", str "sep", str "oct", str "nov", str "dec"]

/-- `" %d-%3s-%d %d:%d:%d %c%2d%2d"` -/
def internalDateFormat : List Directive :=
  [.space, .int none, .lit 45, .word 3, .lit 45, .int none, .space, .int none, .lit 58, .int none,
    .lit 58, .int none, .space, .char, .int (some 2), .int (some 2)]

/-- `"17-Jul-1996 02:44:25 -0700"` to seconds since the epoch, 0 on failure. -/
def parseInternalDate (value : Bytes) : Int :=
  match sscanf internalDateFormat (cstr value) with
  | day :: mon :: year :: hour :: minute :: second :: zone =>
    match monthNames.findIdx? (· = lower mon.toWord) with
    | none => 0
    | some month =>
      let tmYear := wrapInt (year.toInt - 1900)
      let utc := timegm tmYear month day.toInt hour.toInt minute.toInt second.toInt
      if utc = -1 then 0
      else
        match zone with
        | [sign, hh, mm] =>
          let offset := wrapInt ((hh.toInt * 60 + mm.toInt) * 60)
          utc - if sign.toChar = 45 then -offset else offset
        | _ => utc
  | _ => 0

/-! ## Responses -/

/-- A run of consecutive UIDs; `many` says that it has more than one. -/
def uidRange (lo hi : UInt32) (many : Bool) : Bytes :=
  decimal lo.toNat ++ if many then 58 :: decimal hi.toNat else []

/-- The run from `lo` to `hi`, extended as far as the list goes on, then the runs after it. -/
def uidRuns (lo hi : UInt32) (many : Bool) : List UInt32 → Bytes
  | [] => uidRange lo hi many
  | u :: us =>
    if u = hi + 1 then uidRuns lo u true us
    else uidRange lo hi many ++ 44 :: uidRuns u u false us

/-- Collapses a sorted UID list into an IMAP sequence set. -/
def uidSet : List UInt32 → Bytes
  | [] => []
  | u :: us => uidRuns u u false us

example : uidSet [1, 2, 3, 7] = str "1:3,7" := by decide

def parseListLine (line : Bytes) : Option FolderInfo :=
  if line.length < 2 ∨ line.head? ≠ some 42 then none
  else
    let i := skipSpace line 1
    if lower (slice line i 4) ≠ str "list" then none
    else
      let i := skipSpace line (i + 4)
      if (line.drop i).head? ≠ some 40 then none
      else
        match find line 41 i with
        | none => none
        | some close =>
          let attrs := lower (slice line i (close - i + 1))
          let selectable := (findSub attrs (str "\\noselect") 0).isNone
          match readAstring line (close + 1) with
          | (none, _) => none
          | (some delim, i) =>
            let delimiter := if lower delim = str "nil" then 0 else delim.headD 0
            match readAstring line i with
            | (none, _) => none
            | (some rawName, _) =>
              if rawName = [] then none
              else some { rawName, selectable, delimiter, fullName := decodeModifiedUtf7 rawName }

def parseListResponse (response : Bytes) : Reply ClientExn (List FolderInfo) :=
  (splitLines response).map fun lines => lines.filterMap parseListLine

/-- Cursor just past `" fetch "`, `none` for a line that is not an untagged FETCH. -/
def fetchItems (line : Bytes) : Option Nat :=
  if line.head? ≠ some 42 then none
  else (findSub (lower line) (str " fetch ") 0).map (· + 7)

/-- The item loop of `parseFetchBodies`. -/
def bodyItems (line : Bytes) : Nat → Nat → Option UInt32 → Option Bytes →
    Reply ClientExn (Option UInt32 × Option Bytes)
  | 0, _, _, _ => .hangs
  | fuel + 1, i, uid, body =>
    let i := skipSpace line i
    match line.drop i with
    | [] => .ok (uid, body)
    | c :: _ =>
      if c = 40 ∨ c = 41 then bodyItems line fuel (i + 1) uid body
      else
        match readAstring line i with
        | (none, _) => .ok (uid, body)
        | (some key, i) =>
          let k := lower key
          if k = str "uid" then
            match readAstring line i with
            | (none, i) => bodyItems line fuel i uid body
            | (some v, i) => bodyItems line fuel i (some (strtoul (cstr v)).toUInt32) body
          else if k.take 5 = str "body[" ∨ k = str "rfc822" then
            match readAstring line i with
            | (none, i) => bodyItems line fuel i uid body
            | (some v, i) => bodyItems line fuel i uid (some v)
          else
            match readAstring line i with
            | (none, _) => .ok (uid, body)
            | (some _, i) => bodyItems line fuel i uid body

/-- What one line of a batched fetch yields; entries whose UID or body is missing are skipped. -/
def parseBodyLine (line : Bytes) : Reply ClientExn (Option FetchedBody) :=
  match fetchItems line with
  | none => .ok none
  | some i =>
    (bodyItems line (line.length + 2) i none none).map fun
      | (some uid, some rfc822) => some { uid, rfc822 }
      | _ => none

/-- The bodies of a batched fetch, in the order the server sent them. -/
def parseFetchBodies (response : Bytes) : Reply ClientExn (List FetchedBody) :=
  (splitLines response).bind fun lines =>
    (Reply.mapM parseBodyLine lines).map fun bodies => bodies.filterMap id

/-- The item loop of `parseFetchResponse`; the flag says whether a UID has been seen. -/
def metaItems (line : Bytes) : Nat → Nat → Bool → MessageMeta →
    Reply ClientExn (Bool × MessageMeta)
  | 0, _, _, _ => .hangs
  | fuel + 1, i, haveUid, info =>
    let i := skipSpace line i
    match line.drop i with
    | [] => .ok (haveUid, info)
    | c :: _ =>
      if c = 40 ∨ c = 41 then metaItems line fuel (i + 1) haveUid info
      else
        match readAstring line i with
        | (none, _) => .ok (haveUid, info)
        | (some key, i) =>
          let k := lower key
          if k = str "uid" then
            match readAstring line i with
            | (none, i) => metaItems line fuel i haveUid info
            | (some v, i) =>
              metaItems line fuel i true { info with uid := (strtoul (cstr v)).toUInt32 }
          else if k = str "rfc822.size" then
            match readAstring line i with
            | (none, i) => metaItems line fuel i haveUid info
            | (some v, i) =>
              metaItems line fuel i haveUid { info with size := (strtoul (cstr v)).toUInt32 }
          else if k = str "flags" then
            let i := skipSpace line i
            match find line 41 i with
            | none => .ok (haveUid, info)
            | some close =>
              let (flags, keywords) := parseFlags (slice line i (close - i + 1))
              metaItems line fuel (close + 1) haveUid
                { info with flags, keywords := info.keywords ++ keywords }
          else if k = str "internaldate" then
            match readAstring line i with
            | (none, i) => metaItems line fuel i haveUid info
            | (some v, i) =>
              metaItems line fuel i haveUid { info with internalDate := parseInternalDate v }
          else metaItems line fuel i haveUid info

/-- What one line of a listing yields; a line without a UID is skipped. -/
def parseMetaLine (line : Bytes) : Reply ClientExn (Option MessageMeta) :=
  match fetchItems line with
  | none => .ok none
  | some i =>
    (metaItems line (line.length + 2) i false {}).map fun (haveUid, info) =>
      if haveUid then some info else none

def parseFetchResponse (response : Bytes) : Reply ClientExn (List MessageMeta) :=
  (splitLines response).bind fun lines =>
    (Reply.mapM parseMetaLine lines).map fun metas => metas.filterMap id

end Imap

end Imap2Pst
