import Imap2Pst.Mime.Headers

/-!
# Mime.Entity

The MIME entity tree, translated from `mime/entity.cpp`: an entity is a header block and a body, a
multipart body is a list of entities, a `message/rfc822` body is a single one. `parseEntity`
recurses on the nesting levels left, so the depth of the tree is bounded by construction.

* `findBoundary` — the next delimiter line of a multipart body.
* `splitParts` — the loop that cuts a multipart body into the sources of its parts.
* `parseEntity` — the tree of a source.
-/

namespace Imap2Pst
namespace Mime

open CxxStd

structure Entity where
  headers : List HeaderField := []
  type_ : Bytes := []
  subtype : Bytes := []
  charset : Bytes := []
  disposition : Bytes := []
  filename : Bytes := []
  contentId : Bytes := []
  /-- The decoded body of a leaf. -/
  body : Bytes := []
  /-- The body exactly as it arrived. -/
  rawBody : Bytes := []
  parts : List Entity := []

namespace Entity

def isMultipart (e : Entity) : Bool := e.type_ = str "multipart"

def isMessage (e : Entity) : Bool := e.type_ = str "message" && e.subtype = str "rfc822"

def mediaType (e : Entity) : Bytes := e.type_ ++ str "/" ++ e.subtype

end Entity

def kMaxNestingDepth : Nat := 8

def stripAngles (s : Bytes) : Bytes :=
  let t := trim s
  if t.head? = some (chr '<') ∧ t.getLast? = some (chr '>') then slice t 1 (t.length - 2)
  else t

/-! ## Multipart bodies -/

/-- A delimiter line: where it starts, where the next line starts, whether it closes the
multipart. -/
structure Boundary where
  at_ : Nat
  lineEnd : Nat
  isFinal : Bool
  deriving DecidableEq, Repr

def marker (boundary : Bytes) : Bytes := str "--" ++ boundary

@[simp] theorem marker_length (boundary : Bytes) :
    (marker boundary).length = 2 + boundary.length := by
  rw [marker, List.length_append]
  rfl

theorem marker_ne_nil (boundary : Bytes) : marker boundary ≠ [] := by simp [marker, str]

/-- The delimiter line that starts at `at_`. -/
def boundaryAt (body boundary : Bytes) (at_ : Nat) : Boundary :=
  let after := at_ + (marker boundary).length
  let isFinal := (body.drop after).take 2 = str "--"
  -- the rest of the line is transport padding and is ignored
  let lineEnd := match find body 10 (if isFinal then after + 2 else after) with
    | some eol => eol + 1
    | none => body.length
  ⟨at_, lineEnd, isFinal⟩

/-- The next `"--boundary"` at the start of a line, from `i` on. -/
def findBoundary (body boundary : Bytes) (i : Nat) : Option Boundary :=
  match _h : findSub body (marker boundary) i with
  | none => none
  | some at_ =>
    if at_ = 0 ∨ body[at_ - 1]? = some 10 then some (boundaryAt body boundary at_)
    else findBoundary body boundary (at_ + (marker boundary).length)
termination_by body.length - i
decreasing_by
  obtain ⟨hle, hlen, _⟩ := findSub_eq_some _h (marker_ne_nil boundary)
  rw [marker_length] at *
  omega

theorem boundaryAt_lineEnd {body boundary : Bytes} {at_ : Nat}
    (h : at_ + (marker boundary).length ≤ body.length) :
    at_ < (boundaryAt body boundary at_).lineEnd ∧
      (boundaryAt body boundary at_).lineEnd ≤ body.length := by
  rw [marker_length] at h
  simp only [boundaryAt, marker_length]
  split
  · rename_i eol hfind
    obtain ⟨hle, hlt⟩ := find_eq_some hfind
    have hat : at_ ≤ eol := by
      refine le_trans ?_ hle
      split <;> omega
    exact ⟨Nat.lt_succ_of_le hat, hlt⟩
  · omega

theorem findBoundary_eq_some {body boundary : Bytes} {i : Nat} {b : Boundary}
    (h : findBoundary body boundary i = some b) :
    i ≤ b.at_ ∧ b.at_ < b.lineEnd ∧ b.lineEnd ≤ body.length := by
  fun_induction findBoundary body boundary i with
  | case1 i hnone => cases h
  | case2 i at_ hsome hline =>
    cases h
    obtain ⟨hle, hlen, _⟩ := findSub_eq_some hsome (marker_ne_nil boundary)
    exact ⟨hle, boundaryAt_lineEnd hlen⟩
  | case3 i at_ hsome hline ih =>
    obtain ⟨hle, _, _⟩ := findSub_eq_some hsome (marker_ne_nil boundary)
    obtain ⟨hat, hend⟩ := ih h
    exact ⟨by omega, hend⟩

def trimTrailingLineEnd (s : Bytes) : Bytes :=
  let s := if s.getLast? = some 10 then s.dropLast else s
  if s.getLast? = some 13 then s.dropLast else s

/-- The loop over the delimiter lines of `body` from `cursor` on: the sources of the parts.
`started` says whether a delimiter line has been seen. -/
def splitParts (body boundary : Bytes) (cursor : Nat) (started : Bool) : List Bytes :=
  match _h : findBoundary body boundary cursor with
  | none =>
    -- no closing boundary: whatever is left is the last part
    if started ∧ cursor < body.length then [body.drop cursor] else []
  | some b =>
    let part := if started then [trimTrailingLineEnd (slice body cursor (b.at_ - cursor))] else []
    if b.isFinal then part else part ++ splitParts body boundary b.lineEnd true
termination_by body.length - cursor
decreasing_by
  obtain ⟨hle, hlt, hend⟩ := findBoundary_eq_some _h
  omega

theorem isPrefix_trimTrailingLineEnd (s : Bytes) : trimTrailingLineEnd s <+: s := by
  have hdrop (t : Bytes) (c : Byte) :
      (if t.getLast? = some c then t.dropLast else t) <+: t := by
    split
    · exact t.dropLast_prefix
    · exact List.prefix_rfl
  exact (hdrop _ 13).trans (hdrop s 10)

/-- A part is a piece of the body it is cut from. -/
theorem infix_of_mem_splitParts {body boundary part : Bytes} {cursor : Nat} {started : Bool}
    (h : part ∈ splitParts body boundary cursor started) : part <:+: body := by
  have hfirst (cursor : Nat) (started : Bool) (b : Boundary)
      (h : part ∈ if started then [trimTrailingLineEnd (slice body cursor (b.at_ - cursor))] else []) :
      part <:+: body := by
    split at h
    · rw [List.mem_singleton.1 h]
      have htrim := (isPrefix_trimTrailingLineEnd (slice body cursor (b.at_ - cursor))).isInfix
      exact htrim.trans ((List.take_prefix _ _).isInfix.trans (List.drop_suffix _ _).isInfix)
    · cases h
  fun_induction splitParts body boundary cursor started with
  | case1 cursor started hnone hleft =>
    rw [List.mem_singleton.1 h]
    exact (List.drop_suffix _ _).isInfix
  | case2 cursor started hnone hleft => cases h
  | case3 cursor started b hb first hfinal => exact hfirst cursor started b h
  | case4 cursor started b hb first hfinal ih =>
    rcases List.mem_append.1 h with h | h
    · exact hfirst cursor started b h
    · exact ih h

/-! ## The tree -/

section

variable (icu : Converter)

/-- The fields of an entity that `parseEntity` reads off the header block. -/
def entityHead (source : Bytes) : Entity :=
  let (headers, bodyOffset) := parseHeaderBlock source
  let contentType := headerValue headers (str "Content-Type")
  let media := lower (fieldToken contentType)
  let disposition := headerValue headers (str "Content-Disposition")
  let filename := fieldParameter icu disposition (str "filename")
  let (type_, subtype) := match find media (chr '/') 0 with
    -- no Content-Type means text/plain
    | none => (str "text", str "plain")
    | some slash => (media.take slash, media.drop (slash + 1))
  { headers,
    type_,
    subtype,
    charset := fieldParameter icu contentType (str "charset"),
    disposition := lower (fieldToken disposition),
    -- older senders put the name on Content-Type instead
    filename := if filename = [] then fieldParameter icu contentType (str "name") else filename,
    contentId := stripAngles (headerValue headers (str "Content-ID")),
    rawBody := source.drop bodyOffset }

/-- The boundary parameter of a multipart. -/
def boundaryOf (e : Entity) : Bytes :=
  fieldParameter icu (headerValue e.headers (str "Content-Type")) (str "boundary")

/-- A leaf: the body decoded. -/
def decoded (e : Entity) : Entity :=
  let encoding := headerValue e.headers (str "Content-Transfer-Encoding")
  { e with body := decodeBody e.rawBody (fieldToken encoding) }

/-- `parseEntity` with `levels` nesting levels left: past the limit a part is kept whole. -/
def parseEntityAt : Nat → Bytes → Entity
  | 0, source => decoded (entityHead icu source)
  | levels + 1, source =>
    let e := entityHead icu source
    if e.isMultipart ∧ boundaryOf icu e ≠ [] then
      { e with
        parts := (splitParts e.rawBody (boundaryOf icu e) 0 false).map (parseEntityAt levels) }
    else if e.isMessage then { e with parts := [parseEntityAt levels e.rawBody] }
    else decoded e

def parseEntity (source : Bytes) (depth : Nat) : Entity :=
  parseEntityAt icu (kMaxNestingDepth - depth) source

end

end Mime
end Imap2Pst
