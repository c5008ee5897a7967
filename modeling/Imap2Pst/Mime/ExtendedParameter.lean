import Imap2Pst.Mime.AddressRoundTrip
import Mathlib.Data.List.Perm.Basic

/-!
# Mime.ExtendedParameter

The parameter values of RFC 2231, as they are sent and as `fieldParameter` reads them.

* `Spelling`, `Segment`     — octets in the percent encoding, and the segments of a value.
* `percentDecode_iff`       — when the escapes of a joined text are the ones that were written.
* `Conveys`                 — the parameters of a field that carry a value, in any order.
* `fieldParameter_conveyed` — the value is read back where the field is `Readable`.
* `percent_kept_iff`        — next to an extended segment a percent sign is not kept.
-/

namespace Imap2Pst
namespace Mime

open CxxStd

/-! ## Octets -/

/-- The tokens of a parameter: no white space, controls or specials. -/
def isParameterByte (c : Byte) : Bool := 33 ≤ c && c ≤ 126 && c ∉ str "()<>@,;:\\\"/[]?="

/-- What an attribute and the plain octets of an extended value are made of. -/
def isAttributeByte (c : Byte) : Bool := isParameterByte c && c ∉ str "*'%"

theorem parameterByte {c : Byte} (h : isParameterByte c = true) : isSpace c = false ∧ c ∉ marks ∧
    c ≠ chr ';' ∧ c ≠ chr '=' ∧ c ≠ chr '"' := by
  have hall : ∀ c : Byte, isParameterByte c = true → isSpace c = false ∧ c ∉ marks ∧
      c ≠ chr ';' ∧ c ≠ chr '=' ∧ c ≠ chr '"' := forall_byte (by decide +kernel)
  exact hall c h

theorem attributeByte {c : Byte} (h : isAttributeByte c = true) : isParameterByte c = true ∧
    toLower c ≠ chr '*' ∧ c ≠ 39 ∧ c ≠ chr '%' := by
  have hall : ∀ c : Byte, isAttributeByte c = true → isParameterByte c = true ∧
      toLower c ≠ chr '*' ∧ c ≠ 39 ∧ c ≠ chr '%' := forall_byte (by decide +kernel)
  exact hall c h

theorem digitByte {c : Byte} (h : isDigit c = true) : isParameterByte c = true := by
  have hall : ∀ c : Byte, isDigit c = true → isParameterByte c = true :=
    forall_byte (by decide +kernel)
  exact hall c h

/-- An octet as it stands, or as an escape. -/
inductive Spelling
  | asIs (c : Byte)
  | escape (d e : Byte)
  deriving DecidableEq

namespace Spelling

def text : Spelling → Bytes
  | asIs c => [c]
  | escape d e => [chr '%', d, e]

def value : Spelling → Byte
  | asIs c => c
  | escape d e => (hexValue d).getD 0 <<< 4 ||| (hexValue e).getD 0

/-- The digits of an escape are hexadecimal. -/
def Proper : Spelling → Prop
  | asIs _ => True
  | escape d e => (hexValue d).isSome ∧ (hexValue e).isSome

instance (u : Spelling) : Decidable u.Proper :=
  match u with
  | asIs _ => .isTrue trivial
  | escape _ _ => inferInstanceAs (Decidable (_ ∧ _))

end Spelling

def spelled (us : List Spelling) : Bytes := us.flatMap Spelling.text

/-- Behind every percent sign that is not an escape stand less than two octets. -/
def EscapesOnly (us : List Spelling) : Prop :=
  ∀ pre post, us = pre ++ .asIs (chr '%') :: post → (spelled post).length < 2

@[simp] theorem spelled_nil : spelled [] = [] := rfl

@[simp] theorem spelled_cons (u : Spelling) (us : List Spelling) :
    spelled (u :: us) = u.text ++ spelled us := rfl

@[simp] theorem spelled_append (us vs : List Spelling) :
    spelled (us ++ vs) = spelled us ++ spelled vs := List.flatMap_append

theorem percentDecode_cons {c : Byte} (hc : c ≠ chr '%') (s : Bytes) :
    percentDecode (c :: s) = c :: percentDecode s := by
  match s with
  | [] => rfl
  | [d] => rfl
  | _ :: _ :: _ => exact if_neg hc

theorem percentDecode_escape (d e : Byte) (s : Bytes) :
    percentDecode (chr '%' :: d :: e :: s) = hexByte d e :: percentDecode s := if_pos rfl

theorem percentDecode_short {s : Bytes} (h : s.length ≤ 2) : percentDecode s = s := by
  match s with
  | [] => rfl
  | [_] => rfl
  | [_, _] => rfl
  | _ :: _ :: _ :: _ => simp at h

theorem hexValue_plain {c : Byte} (h : (hexValue c).isSome) :
    isAttributeByte c = true ∧ c ≠ chr '+' ∧ c ≠ chr '-' := by
  have hall : ∀ c : Byte, (hexValue c).isSome →
      isAttributeByte c = true ∧ c ≠ chr '+' ∧ c ≠ chr '-' := forall_byte (by decide +kernel)
  exact hall c h

theorem hexValue_ne {c : Byte} (h : (hexValue c).isSome) : c ≠ chr '%' :=
  (attributeByte (hexValue_plain h).1).2.2.2

theorem hexByte_digits {d e : Byte} (hd : (hexValue d).isSome) (he : (hexValue e).isSome) :
    hexByte d e = (Spelling.escape d e).value := by
  obtain ⟨hbyte, hplus, hminus⟩ := hexValue_plain hd
  have hspace := (parameterByte (attributeByte hbyte).1).1
  obtain ⟨hi, hhi⟩ := Option.isSome_iff_exists.1 hd
  obtain ⟨lo, hlo⟩ := Option.isSome_iff_exists.1 he
  simp [hexByte, Spelling.value, hspace, hplus, hminus, hhi, hlo]

theorem hexValue_lt {c v : Byte} (h : hexValue c = some v) : v < 16 ∧ v ≠ chr '%' ∧
    0 - v ≠ chr '%' ∧ (v = 2 → c = chr '2') ∧ (v = 5 → c = chr '5') := by
  have hall : ∀ c : Byte, (hexValue c).isSome = true → (hexValue c).getD 0 < 16 ∧
      (hexValue c).getD 0 ≠ chr '%' ∧ 0 - (hexValue c).getD 0 ≠ chr '%' ∧
      ((hexValue c).getD 0 = 2 → c = chr '2') ∧ ((hexValue c).getD 0 = 5 → c = chr '5') :=
    forall_byte (by decide +kernel)
  have hv := hall c
  rw [h] at hv
  exact hv rfl

theorem nibbles_percent {hi lo : Byte} (hhi : hi < 16) (hlo : lo < 16)
    (h : hi <<< 4 ||| lo = chr '%') : hi = 2 ∧ lo = 5 := by
  have hall : ∀ i j : Fin 16, UInt8.ofNat i <<< 4 ||| UInt8.ofNat j = chr '%' →
      UInt8.ofNat i = 2 ∧ UInt8.ofNat j = 5 := by decide +kernel
  have hboth := hall ⟨hi.toNat, hhi⟩ ⟨lo.toNat, hlo⟩
  rw [UInt8.ofNat_toNat, UInt8.ofNat_toNat] at hboth
  exact hboth h

/-- Only `%25` is read as a percent sign. -/
theorem hexByte_percent {d e : Byte} (h : hexByte d e = chr '%') : d = chr '2' ∧ e = chr '5' := by
  have hlow : (hexValue e).getD 0 ≠ chr '%' ∧ 0 - (hexValue e).getD 0 ≠ chr '%' := by
    cases he : hexValue e with
    | none => decide
    | some lo => exact ⟨(hexValue_lt he).2.1, (hexValue_lt he).2.2.1⟩
  unfold hexByte at h
  dsimp only at h
  split_ifs at h with hspace hminus
  · exact absurd h hlow.1
  · exact absurd h hlow.2
  · cases hd : hexValue d with
    | none =>
      have hzero : (0 : Byte) ≠ chr '%' := by decide
      rw [hd] at h
      exact absurd h hzero
    | some hi =>
      obtain ⟨hhi, hne, -, htwo, -⟩ := hexValue_lt hd
      cases he : hexValue e with
      | none =>
        rw [hd, he] at h
        exact absurd h hne
      | some lo =>
        obtain ⟨hlo, -, -, -, hfive⟩ := hexValue_lt he
        rw [hd, he] at h
        obtain ⟨hhi2, hlo5⟩ := nibbles_percent hhi hlo h
        exact ⟨htwo hhi2, hfive hlo5⟩

/-- No more octets come out than were spelled, wherever the decoder gets out of step. -/
theorem length_percentDecode_le : ∀ {us : List Spelling}, (∀ u ∈ us, u.Proper) →
    (percentDecode (spelled us)).length ≤ us.length
  | [], _ => Nat.le_refl _
  | .escape d e :: us, h => by
    rw [List.forall_mem_cons] at h
    have ih := length_percentDecode_le h.2
    rw [spelled_cons, Spelling.text, List.cons_append, List.cons_append, List.cons_append,
      List.nil_append, percentDecode_escape]
    exact Nat.succ_le_succ ih
  | .asIs c :: us, h => by
    rw [List.forall_mem_cons] at h
    by_cases hc : c = chr '%'
    · subst hc
      match us, h.2 with
      | [], _ => exact Nat.le_refl _
      | [.asIs d], _ => exact Nat.le_refl _
      | .asIs d :: .asIs e :: us, h =>
        rw [List.forall_mem_cons, List.forall_mem_cons] at h
        have ih := length_percentDecode_le h.2.2
        show (percentDecode (chr '%' :: d :: e :: spelled us)).length ≤ _
        rw [percentDecode_escape]
        simp only [List.length_cons]
        omega
      | .asIs d :: .escape x y :: us, h =>
        rw [List.forall_mem_cons, List.forall_mem_cons] at h
        have ih := length_percentDecode_le h.2.2
        have hx := hexValue_ne h.2.1.1
        have hy := hexValue_ne h.2.1.2
        show (percentDecode (chr '%' :: d :: chr '%' :: x :: y :: spelled us)).length ≤ _
        rw [percentDecode_escape, percentDecode_cons hx, percentDecode_cons hy]
        simp only [List.length_cons]
        omega
      | .escape x y :: us, h =>
        rw [List.forall_mem_cons] at h
        have ih := length_percentDecode_le h.2
        have hy := hexValue_ne h.1.2
        show (percentDecode (chr '%' :: chr '%' :: x :: y :: spelled us)).length ≤ _
        rw [percentDecode_escape, percentDecode_cons hy]
        simp only [List.length_cons]
        omega
    · have ih := length_percentDecode_le h.2
      show (percentDecode (c :: spelled us)).length ≤ _
      rw [percentDecode_cons hc]
      exact Nat.succ_le_succ ih

theorem escapesOnly_cons {u : Spelling} {us : List Spelling} : EscapesOnly (u :: us) ↔
    (u = .asIs (chr '%') → (spelled us).length < 2) ∧ EscapesOnly us := by
  constructor
  · intro h
    refine ⟨fun hu => h [] us (by rw [hu]; rfl), fun pre post heq => ?_⟩
    exact h (u :: pre) post (by rw [heq]; rfl)
  · rintro ⟨hfirst, hrest⟩ pre post heq
    cases pre with
    | nil =>
      cases heq
      exact hfirst rfl
    | cons v pre =>
      cases heq
      exact hrest pre post rfl

theorem escapesOnly_nil : EscapesOnly [] := fun pre post heq => by
  cases pre <;> cases heq

instance decidableEscapesOnly : (us : List Spelling) → Decidable (EscapesOnly us)
  | [] => .isTrue escapesOnly_nil
  | _ :: us =>
    have := decidableEscapesOnly us
    decidable_of_iff _ escapesOnly_cons.symm

/-- A percent sign with two octets behind it is not read. -/
theorem percentDecode_ne {us : List Spelling} (h : ∀ u ∈ us, u.Proper)
    (hlength : 2 ≤ (spelled us).length) :
    percentDecode (chr '%' :: spelled us) ≠ chr '%' :: us.map Spelling.value := by
  obtain ⟨d, e, rest, hrest⟩ : ∃ d e rest, spelled us = d :: e :: rest := by
    match spelled us, hlength with
    | d :: e :: rest, _ => exact ⟨d, e, rest, rfl⟩
  rw [hrest, percentDecode_escape]
  intro heq
  rw [List.cons.injEq] at heq
  -- the octet read can only be the percent sign of "%25", so none of the two starts an escape
  obtain ⟨rfl, rfl⟩ := hexByte_percent heq.1
  match us, h, hrest with
  | .escape _ _ :: _, _, hrest => exact absurd (List.cons.inj hrest).1 (by decide)
  | .asIs _ :: .escape _ _ :: _, _, hrest =>
    exact absurd (List.cons.inj (List.cons.inj hrest).2).1 (by decide)
  | .asIs _ :: .asIs _ :: us, h, hrest =>
    rw [List.forall_mem_cons, List.forall_mem_cons] at h
    have hus : spelled us = rest := (List.cons.inj (List.cons.inj hrest).2).2
    have hle := length_percentDecode_le h.2.2
    have hcount := congrArg List.length heq.2
    rw [hus] at hle
    simp only [List.length_map, List.length_cons] at hcount
    omega

/-- What is spelled is read, if and only if no percent sign is taken for an escape. -/
theorem percentDecode_iff {us : List Spelling} (h : ∀ u ∈ us, u.Proper) :
    percentDecode (spelled us) = us.map Spelling.value ↔ EscapesOnly us := by
  induction us with
  | nil =>
    exact iff_of_true rfl escapesOnly_nil
  | cons u us ih =>
    rw [List.forall_mem_cons] at h
    rw [escapesOnly_cons, ← ih h.2, spelled_cons, List.map_cons]
    match u, h.1 with
    | .escape d e, hu =>
      have hread : percentDecode ((Spelling.escape d e).text ++ spelled us) =
          (Spelling.escape d e).value :: percentDecode (spelled us) := by
        rw [← hexByte_digits hu.1 hu.2]
        exact percentDecode_escape d e _
      rw [hread, List.cons.injEq]
      simp
    | .asIs c, _ =>
      show percentDecode (c :: spelled us) = c :: us.map Spelling.value ↔ _
      by_cases hc : c = chr '%'
      · subst hc
        by_cases hshort : (spelled us).length < 2
        · have hall : percentDecode (chr '%' :: spelled us) = chr '%' :: spelled us :=
            percentDecode_short (by rw [List.length_cons]; omega)
          rw [hall, percentDecode_short (by omega), List.cons.injEq]
          simp [hshort]
        · refine iff_of_false (percentDecode_ne h.2 (by omega)) fun hand => hshort (hand.1 rfl)
      · rw [percentDecode_cons hc, List.cons.injEq]
        simp [hc]

/-! ## Values -/

/-- An octet of a quoted string, with a backslash in front or without. -/
structure QuotedOctet where
  escaped : Bool
  octet : Byte
  deriving DecidableEq

namespace QuotedOctet

def text (q : QuotedOctet) : Bytes := if q.escaped then [chr '\\', q.octet] else [q.octet]

def Proper (q : QuotedOctet) : Prop :=
  q.escaped = false → q.octet ≠ chr '"' ∧ q.octet ≠ chr '\\'

instance (q : QuotedOctet) : Decidable q.Proper := inferInstanceAs (Decidable (_ → _))

end QuotedOctet

def quotedBody (qs : List QuotedOctet) : Bytes := qs.flatMap QuotedOctet.text

inductive ValueText
  | token (s : Bytes)
  | quoted (qs : List QuotedOctet)
  deriving DecidableEq

namespace ValueText

def text : ValueText → Bytes
  | token s => s
  | quoted qs => chr '"' :: (quotedBody qs ++ [chr '"'])

def value : ValueText → Bytes
  | token s => s
  | quoted qs => qs.map QuotedOctet.octet

def Proper : ValueText → Prop
  | token s => ∀ c ∈ s, isParameterByte c = true
  | quoted qs => ∀ q ∈ qs, q.Proper

instance (v : ValueText) : Decidable v.Proper :=
  match v with
  | token s => inferInstanceAs (Decidable (∀ c ∈ s, _))
  | quoted qs => inferInstanceAs (Decidable (∀ q ∈ qs, q.Proper))

end ValueText

/-- `charset'language'`, in front of an extended value in UTF-8. -/
structure CharsetLabel where
  charset : Bytes
  language : Bytes
  charset_utf8 : lower charset = str "utf-8"
  language_plain : ∀ c ∈ language, isAttributeByte c = true

def CharsetLabel.text (l : CharsetLabel) : Bytes := l.charset ++ 39 :: (l.language ++ [39])

/-- An octet of an extended value. -/
def Spelling.Extended : Spelling → Prop
  | .asIs c => isAttributeByte c = true
  | .escape d e => (Spelling.escape d e).Proper

instance (u : Spelling) : Decidable u.Extended :=
  match u with
  | .asIs _ => inferInstanceAs (Decidable (_ = true))
  | .escape d e => inferInstanceAs (Decidable (Spelling.escape d e).Proper)

/-- A segment of a value: as a quoted string, or in the percent encoding. -/
inductive Segment
  | literal (qs : List QuotedOctet)
  | extended (us : List Spelling)
  deriving DecidableEq

namespace Segment

def isExtended : Segment → Bool
  | literal _ => false
  | extended _ => true

def units : Segment → List Spelling
  | literal qs => qs.map fun q => .asIs q.octet
  | extended us => us

def Proper : Segment → Prop
  | literal qs => ∀ q ∈ qs, q.Proper
  | extended us => ∀ u ∈ us, u.Extended

instance (s : Segment) : Decidable s.Proper :=
  match s with
  | literal qs => inferInstanceAs (Decidable (∀ q ∈ qs, q.Proper))
  | extended us => inferInstanceAs (Decidable (∀ u ∈ us, u.Extended))

end Segment

/-- The forms RFC 2231 has for a value: one extended parameter, or numbered segments. -/
inductive Form
  | single (us : List Spelling)
  | continued (first : Segment) (rest : List Segment)

/-! ## Fields -/

/-- An attribute that is not `name`, whatever number it has. -/
def NamesOther (name key : Bytes) : Prop :=
  (∀ c ∈ key, isParameterByte c = true) ∧ (lower key).takeWhile (· ≠ chr '*') ≠ lower name

def Names (name key : Bytes) : Prop :=
  (∀ c ∈ key, isAttributeByte c = true) ∧ lower key = lower name

instance (name key : Bytes) : Decidable (NamesOther name key) :=
  inferInstanceAs (Decidable (_ ∧ _))

instance (name key : Bytes) : Decidable (Names name key) := inferInstanceAs (Decidable (_ ∧ _))

/-- What a parameter of the field is there for. -/
inductive Role
  | other (v : ValueText)
  | fallback (v : ValueText)
  | single (us : List Spelling)
  | segment (index : Nat) (s : Segment)
  deriving DecidableEq

namespace Role

/-- What stands behind the attribute. -/
def mark : Role → Bytes
  | other _ | fallback _ => []
  | single _ => [chr '*']
  | segment k s => chr '*' :: (decimal k ++ if s.isExtended then [chr '*'] else [])

/-- The label stands in front of the first segment, where it is extended. -/
def valueText (label : CharsetLabel) : Role → Bytes
  | other v | fallback v => v.text
  | single us => label.text ++ spelled us
  | segment _ (.literal qs) => (ValueText.quoted qs).text
  | segment k (.extended us) => (if k = 0 then label.text else []) ++ spelled us

def isOwn : Role → Bool
  | other _ => false
  | fallback _ | single _ | segment _ _ => true

def Proper (name key : Bytes) : Role → Prop
  | other v => NamesOther name key ∧ v.Proper
  | fallback v => Names name key ∧ v.Proper
  | single us => Names name key ∧ ∀ u ∈ us, u.Extended
  | segment _ s => Names name key ∧ s.Proper

instance (name key : Bytes) (r : Role) : Decidable (r.Proper name key) :=
  match r with
  | other _ | fallback _ | single _ | segment _ _ => inferInstanceAs (Decidable (_ ∧ _))

end Role

/-- A parameter as it is written. -/
structure Sent where
  role : Role
  key : Bytes
  lead : Bytes := []
  beforeEq : Bytes := []
  afterEq : Bytes := []
  trail : Bytes := []

namespace Sent

def text (label : CharsetLabel) (p : Sent) : Bytes :=
  p.lead ++ ((p.key ++ p.role.mark) ++ (p.beforeEq ++ chr '=' ::
    (p.afterEq ++ (p.role.valueText label ++ p.trail))))

structure Proper (name : Bytes) (p : Sent) : Prop where
  lead : Blank p.lead
  beforeEq : Blank p.beforeEq
  afterEq : Blank p.afterEq
  trail : Blank p.trail
  role : p.role.Proper name p.key

instance (name : Bytes) (p : Sent) : Decidable (p.Proper name) :=
  decidable_of_iff (Blank p.lead ∧ Blank p.beforeEq ∧ Blank p.afterEq ∧ Blank p.trail ∧
      p.role.Proper name p.key)
    ⟨fun ⟨hlead, hbefore, hafter, htrail, hrole⟩ => ⟨hlead, hbefore, hafter, htrail, hrole⟩,
      fun ⟨hlead, hbefore, hafter, htrail, hrole⟩ => ⟨hlead, hbefore, hafter, htrail, hrole⟩⟩

end Sent

/-- The field: its own value, and the parameters behind semicolons. -/
def sentField (main : Bytes) (label : CharsetLabel) (ps : List Sent) : Bytes :=
  main ++ (ps.map (Sent.text label)).flatMap (chr ';' :: ·)

namespace Form

def segments : Form → List Segment
  | single us => [.extended us]
  | continued first rest => first :: rest

def units (f : Form) : List Spelling := f.segments.flatMap Segment.units

def value (f : Form) : Bytes := f.units.map Spelling.value

def isExtended (f : Form) : Bool := f.segments.any Segment.isExtended

/-- The parameters that carry the value. -/
def roles : Form → List Role
  | single us => [.single us]
  | continued first rest => (first :: rest).zipIdx.map fun (s, k) => .segment k s

end Form

/-- The parameters of the name, as they stand in the field. -/
def ownRoles (ps : List Sent) : List Role := (ps.map Sent.role).filter Role.isOwn

/-- The parameters of a field carry a value for `name`, in any order: its segments, the first one
extended when any is, a fallback where there is one, and others between them. -/
structure Conveys (name : Bytes) (f : Form) (fallback : Option ValueText) (ps : List Sent) :
    Prop where
  proper : ∀ p ∈ ps, p.Proper name
  own : (ownRoles ps).Perm ((fallback.map Role.fallback).toList ++ f.roles)
  first_extended : f.isExtended = true → ∀ s ∈ f.segments.head?, s.isExtended = true
  utf8 : ValidUtf8 f.value

/-- The numbers of the segments are values of `int`. -/
def Form.Numbered : Form → Prop
  | single _ => True
  | continued _ rest => rest.length < 2 ^ 31

/-- The extended parameter stands behind the fallback. Next to segments there is no fallback, and
where one of them is extended none of their percent signs is taken for an escape. -/
def Readable (f : Form) (fallback : Option ValueText) (ps : List Sent) : Prop :=
  match f with
  | .single us => (ownRoles ps).getLast? = some (.single us)
  | .continued _ _ => fallback = none ∧ (f.isExtended = true → EscapesOnly f.units)

/-! ## Pieces -/

/-- A text in pieces that are whole is cut into them. -/
theorem splitOutsideQuotes_joined {sep : Byte} (hsep : sep ∉ marks) {a : Bytes}
    {ts : List Bytes} (ha : Passes sep {} a a {}) (hts : ∀ t ∈ ts, Passes sep {} t t {}) :
    splitOutsideQuotes (a ++ ts.flatMap (sep :: ·)) sep = a :: ts := by
  induction ts generalizing a with
  | nil =>
    rw [List.flatMap_nil, List.append_nil]
    exact ha.split.1
  | cons t ts ih =>
    rw [List.forall_mem_cons] at hts
    rw [List.flatMap_cons, List.cons_append, splitOutsideQuotes_sep ha.split.2 hsep,
      ha.split.1, ih hts.1 hts.2]
    rfl

theorem quotedBody_proper {qs : List QuotedOctet} (h : ∀ q ∈ qs, q.Proper) :
    QuotedBody (quotedBody qs) := by
  induction qs with
  | nil => exact .nil
  | cons q qs ih =>
    rw [List.forall_mem_cons] at h
    obtain ⟨escaped, c⟩ := q
    cases escaped with
    | true => exact .pair (ih h.2)
    | false =>
      obtain ⟨hquote, hescape⟩ := h.1 rfl
      exact .octet hquote hescape (ih h.2)

theorem unescape_quotedBody {qs : List QuotedOctet} (h : ∀ q ∈ qs, q.Proper) :
    unescape (quotedBody qs) = qs.map QuotedOctet.octet := by
  induction qs with
  | nil => rfl
  | cons q qs ih =>
    rw [List.forall_mem_cons] at h
    obtain ⟨escaped, c⟩ := q
    rw [List.map_cons, ← ih h.2]
    cases escaped with
    | true =>
      show unescape (chr '\\' :: c :: quotedBody qs) = _
      rw [unescape, if_pos rfl]
    | false =>
      show unescape (c :: quotedBody qs) = _
      cases quotedBody qs with
      | nil => rfl
      | cons d t => rw [unescape, if_neg (h.1 rfl).2]

/-- A text without white space and quotes is its own value. -/
theorem unquote_bare {s : Bytes} (h : ∀ c ∈ s, isSpace c = false ∧ c ≠ chr '"') :
    unquote s = s := by
  have hhead : s.head? ≠ some (chr '"') := fun hhead =>
    (h _ (List.mem_of_mem_head? hhead)).2 rfl
  rw [unquote, trim_of_noSpace fun c hc => (h c hc).1, if_pos (.inr (.inl hhead))]

theorem unquote_between {a b : Bytes} (ha : Blank a) (hb : Blank b) (s : Bytes) :
    unquote (trimRight (a ++ (s ++ b))) = unquote s := by
  rw [unquote, unquote, trim_trimRight, trim_blank_append ha, trim_append_blank hb]

/-- Octets that pass, and are no white space. -/
def Solid (s : Bytes) : Prop :=
  ∀ c ∈ s, isSpace c = false ∧ c ∉ marks ∧ c ≠ chr ';'

namespace Solid

theorem append {a b : Bytes} (ha : Solid a) (hb : Solid b) : Solid (a ++ b) := by
  intro c hc
  rcases List.mem_append.1 hc with hc | hc
  · exact ha c hc
  · exact hb c hc

theorem passes {s : Bytes} (h : Solid s) : Passes (chr ';') {} s s {} :=
  .plain fun c hc => (h c hc).2

theorem unquote {s : Bytes} (h : Solid s) : Mime.unquote s = s :=
  unquote_bare fun c hc => ⟨(h c hc).1, (not_mem_marks (h c hc).2.1).1⟩

theorem of_parameterBytes {s : Bytes} (h : ∀ c ∈ s, isParameterByte c = true) : Solid s := by
  intro c hc
  obtain ⟨hspace, hmarks, hsemicolon, -⟩ := parameterByte (h c hc)
  exact ⟨hspace, hmarks, hsemicolon⟩

theorem of_attributeBytes {s : Bytes} (h : ∀ c ∈ s, isAttributeByte c = true) : Solid s :=
  of_parameterBytes fun c hc => (attributeByte (h c hc)).1

theorem octet {c : Byte} (h : isParameterByte c = true) : Solid [c] :=
  of_parameterBytes (List.forall_mem_singleton.2 h)

theorem spelled {us : List Spelling} (h : ∀ u ∈ us, u.Extended) : Solid (spelled us) := by
  induction us with
  | nil => simp [Solid]
  | cons u us ih =>
    rw [List.forall_mem_cons] at h
    refine append ?_ (ih h.2)
    match u, h.1 with
    | .asIs c, hc => exact octet (attributeByte hc).1
    | .escape d e, ⟨hd, he⟩ =>
      have hdigit {c : Byte} (hc : (hexValue c).isSome) : Solid [c] :=
        octet (attributeByte (hexValue_plain hc).1).1
      exact (octet (by decide)).append ((hdigit hd).append (hdigit he))

end Solid

theorem CharsetLabel.charset_solid (l : CharsetLabel) :
    Solid l.charset ∧ ∀ c ∈ l.charset, c ≠ 39 ∧ c ≠ chr '"' := by
  have hall : ∀ c : Byte, toLower c ∈ str "utf-8" →
      (isSpace c = false ∧ c ∉ marks ∧ c ≠ chr ';') ∧ c ≠ 39 ∧ c ≠ chr '"' :=
    forall_byte (by decide +kernel)
  have hmem {c : Byte} (hc : c ∈ l.charset) : toLower c ∈ str "utf-8" := by
    rw [← l.charset_utf8]
    exact List.mem_map_of_mem hc
  exact ⟨fun c hc => (hall c (hmem hc)).1, fun c hc => (hall c (hmem hc)).2⟩

theorem CharsetLabel.solid (l : CharsetLabel) : Solid l.text := by
  have hquote : Solid [39] := .octet (by decide)
  exact l.charset_solid.1.append
    (hquote.append ((Solid.of_attributeBytes l.language_plain).append hquote))

/-! ## Parameters -/

theorem ValueText.Proper.passes {v : ValueText} (h : v.Proper) :
    Passes (chr ';') {} v.text v.text {} := by
  cases v with
  | token s => exact (Solid.of_parameterBytes h).passes
  | quoted qs => exact (quotedBody_proper h).passes_quoted (chr ';') false

theorem ValueText.Proper.unquote {v : ValueText} (h : v.Proper) : unquote v.text = v.value := by
  cases v with
  | token s => exact (Solid.of_parameterBytes h).unquote
  | quoted qs => exact (unquote_quoted _).trans (unescape_quotedBody h)

/-- What is read of a parameter's value. -/
def Role.reads (label : CharsetLabel) : Role → Bytes
  | .other v | .fallback v => v.value
  | .segment _ (.literal qs) => qs.map QuotedOctet.octet
  | r => r.valueText label

theorem Role.mark_plain (r : Role) :
    (∀ c ∈ r.mark, isParameterByte c = true) ∧ lower r.mark = r.mark := by
  have hmark : ∀ c ∈ r.mark, isDigit c = true ∨ c = chr '*' := by
    cases r with
    | other v => simp [mark]
    | fallback v => simp [mark]
    | single us => simp [mark]
    | segment k s =>
      intro c hc
      simp only [mark, List.mem_cons, List.mem_append] at hc
      rcases hc with rfl | hc | hc
      · exact .inr rfl
      · exact .inl (isDigit_of_mem_decimal hc)
      · split at hc
        · exact .inr (List.mem_singleton.1 hc)
        · cases hc
  have hbyte : ∀ c ∈ r.mark, isParameterByte c = true ∧ toLower c = c := by
    intro c hc
    rcases hmark c hc with hdigit | rfl
    · exact ⟨digitByte hdigit, toLower_of_isDigit hdigit⟩
    · exact ⟨by decide, by decide⟩
  refine ⟨fun c hc => (hbyte c hc).1, ?_⟩
  rw [lower, List.map_congr_left fun c hc => (hbyte c hc).2, List.map_id']

namespace Sent.Proper

variable {name : Bytes} {p : Sent} (h : p.Proper name) (label : CharsetLabel)

include h

theorem parameter_key : ∀ c ∈ p.key, isParameterByte c = true := by
  obtain ⟨role, key, lead, beforeEq, afterEq, trail⟩ := p
  have hrole := h.role
  cases role with
  | other v => exact hrole.1.1
  | _ => exact fun c hc => (attributeByte (hrole.1.1 c hc)).1

theorem key_plain : ∀ c ∈ p.key, isSpace c = false ∧ c ≠ chr '=' := fun c hc => by
  obtain ⟨hspace, -, -, heq, -⟩ := parameterByte (h.parameter_key c hc)
  exact ⟨hspace, heq⟩

theorem value : Passes (chr ';') {} (p.role.valueText label) (p.role.valueText label) {} ∧
    unquote (p.role.valueText label) = p.role.reads label := by
  have hsolid {s : Bytes} (hs : Solid s) :
      Passes (chr ';') {} s s {} ∧ unquote s = s := ⟨hs.passes, hs.unquote⟩
  obtain ⟨role, key, lead, beforeEq, afterEq, trail⟩ := p
  have hrole := h.role
  match role, hrole with
  | .other v, hv => exact ⟨hv.2.passes, hv.2.unquote⟩
  | .fallback v, hv => exact ⟨hv.2.passes, hv.2.unquote⟩
  | .single us, hus => exact hsolid (label.solid.append (.spelled hus.2))
  | .segment k (.literal qs), hqs =>
    have hv : (ValueText.quoted qs).Proper := hqs.2
    exact ⟨hv.passes, hv.unquote⟩
  | .segment k (.extended us), hus =>
    refine hsolid (Solid.append ?_ (.spelled hus.2))
    split
    · exact label.solid
    · simp [Solid]

theorem passes : Passes (chr ';') {} (p.text label) (p.text label) {} := by
  have hblank {b : Bytes} (hb : Blank b) : Passes (chr ';') {} b b {} := by
    refine .plain fun c hc => ?_
    obtain ⟨hmarks, -, hsemicolon⟩ := plain_of_blank hb c hc
    exact ⟨hmarks, hsemicolon⟩
  have heq : Passes (chr ';') {} [chr '='] [chr '='] {} :=
    .plain (List.forall_mem_singleton.2 (by decide))
  have hmark := (Solid.of_parameterBytes p.role.mark_plain.1).passes
  have hkey := (Solid.of_parameterBytes h.parameter_key).passes.append hmark
  have hval := (hblank h.afterEq).append ((h.value label).1.append (hblank h.trail))
  exact (hblank h.lead).append (hkey.append ((hblank h.beforeEq).append (heq.append hval)))

end Sent.Proper

/-- The part of `addPiece` behind the last star of the key. -/
def addValue (want : Bytes) (st : Parameter) (extended : Bool) (key val : Bytes) : Parameter :=
  let star := find key (chr '*') 0
  let index : Int := match star with
    | some star => atoi (key.drop (star + 1))
    | none => -1
  let key := key.take (star.getD key.length)
  if key ≠ want then st
  else if 0 ≤ index then
    { st with
      continuations := setPiece index val st.continuations,
      extended := st.extended || extended }
  else { st with simple := val, extended := extended }

theorem addPiece_eq {want lead key before rest : Bytes} (hlead : Blank lead) (hbefore : Blank before)
    (hkey : ∀ c ∈ key, isSpace c = false ∧ c ≠ chr '=') (st : Parameter) {inner : Bytes}
    {extended : Bool} (hinner : lower key = inner ++ if extended then [chr '*'] else [])
    (hlast : extended = false → inner.getLast? ≠ some (chr '*')) :
    addPiece want st (lead ++ (key ++ (before ++ chr '=' :: rest))) =
      addValue want st extended inner (unquote (trimRight rest)) := by
  have hnot {b : Bytes} (hb : Blank b) : chr '=' ∉ b := fun hmem => absurd (hb _ hmem) (by decide)
  have hfront : chr '=' ∉ (lead ++ (key ++ before)).dropWhile isSpace := by
    intro hmem
    have hmem := (List.dropWhile_suffix isSpace).subset hmem
    rw [List.mem_append, List.mem_append] at hmem
    rcases hmem with hmem | hmem | hmem
    · exact hnot hlead hmem
    · exact (hkey _ hmem).2 rfl
    · exact hnot hbefore hmem
  have hsplit : lead ++ (key ++ (before ++ chr '=' :: rest)) =
      (lead ++ (key ++ before)) ++ chr '=' :: rest := by simp
  have htrim := @trim_append_cons (chr '=') (by decide) (lead ++ (key ++ before)) rest
  have hfind := @find_of_append _ _ (trimRight rest) (chr '=') 0 rfl hfront
  have hlower : trim ((lead ++ (key ++ before)).dropWhile isSpace) = key := by
    have hblank : Blank ((lead ++ (key ++ before)).takeWhile isSpace) := fun c hc =>
      List.mem_takeWhile_imp hc
    rw [← trim_blank_append hblank, List.takeWhile_append_dropWhile, trim_blank_append hlead,
      trim_append_blank hbefore, trim_of_noSpace fun c hc => (hkey c hc).1]
  rw [Nat.zero_add] at hfind
  have hval : ((lead ++ (key ++ before)).dropWhile isSpace ++ chr '=' :: trimRight rest).drop
      (((lead ++ (key ++ before)).dropWhile isSpace).length + 1) = trimRight rest := by
    rw [← List.drop_drop, List.drop_left]
    rfl
  rw [addPiece, hsplit, htrim, hfind]
  have hstar : (lower key).getLast? = some (chr '*') ↔ extended = true := by
    rw [hinner]
    cases extended with
    | true => simp
    | false => simpa using hlast rfl
  have hkeep : (if extended = true then (lower key).dropLast else lower key) = inner := by
    rw [hinner]
    cases extended with
    | true => simp
    | false => simp
  dsimp only
  rw [List.take_left, hlower, hval]
  simp only [hstar, hkeep, Bool.decide_eq_true]
  rfl

theorem exists_inner (key : Bytes) : ∃ inner extended,
    key = inner ++ (if extended then [chr '*'] else []) ∧
      (extended = false → inner.getLast? ≠ some (chr '*')) ∧
        inner.takeWhile (· ≠ chr '*') = key.takeWhile (· ≠ chr '*') := by
  by_cases hlast : key.getLast? = some (chr '*')
  · obtain ⟨inner, rfl⟩ := List.getLast?_eq_some_iff.1 hlast
    refine ⟨inner, true, by simp, by simp, ?_⟩
    rw [List.takeWhile_append]
    split
    · rename_i hall
      rw [List.takeWhile_cons_of_neg (by simp), List.append_nil,
        (List.takeWhile_prefix _).eq_of_length hall]
    · rfl
  · exact ⟨key, false, by simp, fun _ => hlast, rfl⟩

theorem addValue_other {want key : Bytes} (h : key.takeWhile (· ≠ chr '*') ≠ want)
    (st : Parameter) (extended : Bool) (val : Bytes) : addValue want st extended key val = st := by
  unfold addValue
  dsimp only
  rw [take_find, if_pos h]

theorem addValue_plain {want : Bytes} (h : chr '*' ∉ want) (st : Parameter) (extended : Bool)
    (val : Bytes) :
    addValue want st extended want val = { st with simple := val, extended := extended } := by
  unfold addValue
  rw [find_eq_none (by rwa [List.drop_zero])]
  simp

theorem atoi_decimal {k : Nat} (hk : k < 2 ^ 31) : atoi (decimal k) = k := by
  have hdigits {c : Byte} (hc : c ∈ decimal k) := isDigit_of_mem_decimal hc
  have hdrop : (decimal k).dropWhile isSpace = decimal k := by
    obtain ⟨c, cs, hcs⟩ := List.exists_cons_of_ne_nil (decimal_ne_nil k)
    have hc : isDigit c = true := hdigits (by rw [hcs]; exact List.mem_cons_self)
    rw [hcs, List.dropWhile_cons_of_neg (by simp [not_isSpace_of_isDigit hc])]
  have hsign (c : Byte) (hc : isDigit c = false) : (decimal k).head? ≠ some c := fun hhead =>
    not_mem_decimal hc k (List.mem_of_mem_head? hhead)
  have htake : (decimal k).takeWhile isDigit = decimal k :=
    List.takeWhile_eq_self_iff.2 fun c hc => hdigits hc
  have hscan : scanInt none (decimal k) = some ((k : Int), []) := by
    simp [scanInt, hsign 45 (by decide), hsign 43 (by decide), htake, decimal_ne_nil,
      digitsVal_decimal]
  rw [atoi, hdrop, hscan]
  exact scanned_eq hk

theorem addValue_segment {want : Bytes} (h : chr '*' ∉ want) (st : Parameter) (extended : Bool)
    {k : Nat} (hk : k < 2 ^ 31) (val : Bytes) :
    addValue want st extended (want ++ chr '*' :: decimal k) val =
      { st with
        continuations := setPiece k val st.continuations,
        extended := st.extended || extended } := by
  have hfind := @find_of_append (want ++ chr '*' :: decimal k) _ _ (chr '*') 0 rfl h
  have hdrop : (want ++ chr '*' :: decimal k).drop (want.length + 1) = decimal k := by
    rw [← List.drop_drop, List.drop_left]
    rfl
  rw [Nat.zero_add] at hfind
  unfold addValue
  rw [hfind]
  dsimp only
  have hindex : (0 : Int) ≤ k := Int.natCast_nonneg k
  simp only [hdrop, atoi_decimal hk, Option.getD_some, List.take_left, ne_eq, not_true_eq_false,
    if_false, hindex, if_true]

namespace Role

/-- What the parameter adds to what has been collected. -/
def add (label : CharsetLabel) (st : Parameter) (r : Role) : Parameter :=
  match r with
  | other _ => st
  | fallback v => { st with simple := v.value, extended := false }
  | single us => { st with simple := label.text ++ spelled us, extended := true }
  | segment k s =>
    { st with
      continuations := setPiece k (r.reads label) st.continuations,
      extended := st.extended || s.isExtended }

/-- Its number is a value of `int`. -/
def Numbered : Role → Prop
  | segment k _ => k < 2 ^ 31
  | other _ | fallback _ | single _ => True

end Role

theorem Names.star {name key : Bytes} (h : Names name key) : chr '*' ∉ lower name := by
  rw [← h.2]
  intro hmem
  obtain ⟨c, hc, heq⟩ := List.mem_map.1 hmem
  exact (attributeByte (h.1 c hc)).2.1 heq

/-- One parameter of the field. -/
theorem addPiece_text {name : Bytes} {p : Sent} (h : p.Proper name) (hindex : p.role.Numbered)
    (label : CharsetLabel) (st : Parameter) :
    addPiece (lower name) st (p.text label) = p.role.add label st := by
  have hkey : ∀ c ∈ p.key ++ p.role.mark, isSpace c = false ∧ c ≠ chr '=' := by
    intro c hc
    rcases List.mem_append.1 hc with hc | hc
    · exact h.key_plain c hc
    · obtain ⟨hspace, -, -, heq, -⟩ := parameterByte (p.role.mark_plain.1 c hc)
      exact ⟨hspace, heq⟩
  have hpiece {inner : Bytes} {extended : Bool}
      (hinner : lower p.key ++ p.role.mark = inner ++ if extended then [chr '*'] else [])
      (hlast : extended = false → inner.getLast? ≠ some (chr '*')) :
      addPiece (lower name) st (p.text label) =
        addValue (lower name) st extended inner (p.role.reads label) := by
    rw [Sent.text, addPiece_eq h.lead h.beforeEq hkey st
      (by rw [lower_append, p.role.mark_plain.2, hinner]) hlast, unquote_between h.afterEq h.trail,
      (h.value label).2]
  have hnames (hkey : Names name p.key) :
      chr '*' ∉ lower name ∧ (lower name).getLast? ≠ some (chr '*') :=
    ⟨hkey.star, fun hlast => hkey.star (List.mem_of_getLast? hlast)⟩
  obtain ⟨role, key, lead, beforeEq, afterEq, trail⟩ := p
  have hrole := h.role
  match role, hrole with
  | .other v, ⟨hother, _⟩ =>
    obtain ⟨inner, extended, hinner, hlast, hstem⟩ := exists_inner (lower key)
    rw [@hpiece inner extended (by rw [← hinner]; exact List.append_nil _) hlast]
    exact addValue_other (hstem ▸ hother.2) st extended _
  | .fallback v, ⟨hown, _⟩ =>
    obtain ⟨hstar, hlast⟩ := hnames hown
    rw [@hpiece (lower name) false (by rw [← hown.2]; rfl) fun _ => hlast]
    exact addValue_plain hstar st false _
  | .single us, ⟨hown, _⟩ =>
    obtain ⟨hstar, hlast⟩ := hnames hown
    rw [@hpiece (lower name) true (by rw [← hown.2]; rfl) fun h => nomatch h]
    exact addValue_plain hstar st true _
  | .segment k s, ⟨hown, _⟩ =>
    obtain ⟨hstar, -⟩ := hnames hown
    have hlast : (lower name ++ chr '*' :: decimal k).getLast? ≠ some (chr '*') := by
      intro hlast
      rw [List.getLast?_append_of_ne_nil _ (List.cons_ne_nil _ _),
        List.getLast?_cons_of_ne_nil (decimal_ne_nil k)] at hlast
      exact not_mem_decimal (by decide) k (List.mem_of_getLast? hlast)
    rw [@hpiece (lower name ++ chr '*' :: decimal k) s.isExtended
      (by rw [← hown.2, List.append_assoc]; rfl) fun _ => hlast]
    exact addValue_segment hstar st s.isExtended hindex _

/-! ## The map of segments -/

theorem setPiece_perm {i : Int} {l : List (Int × Bytes)} (h : ∀ q ∈ l, q.1 ≠ i) (piece : Bytes) :
    (setPiece i piece l).Perm ((i, piece) :: l) := by
  induction l with
  | nil => exact .refl _
  | cons q l ih =>
    obtain ⟨k, old⟩ := q
    rw [List.forall_mem_cons] at h
    rw [setPiece]
    split
    · exact .refl _
    · rw [if_neg fun heq => h.1 heq.symm]
      exact ((ih h.2).cons _).trans (.swap _ _ _)

/-- The numbers of a map that is kept in order. -/
def Ordered (l : List (Int × Bytes)) : Prop := l.Pairwise fun a b => a.1 < b.1

theorem Ordered.setPiece {i : Int} {l : List (Int × Bytes)} (hl : Ordered l)
    (h : ∀ q ∈ l, q.1 ≠ i) (piece : Bytes) : Ordered (setPiece i piece l) := by
  induction l with
  | nil => exact List.pairwise_singleton _ _
  | cons q l ih =>
    obtain ⟨k, old⟩ := q
    rw [List.forall_mem_cons] at h
    obtain ⟨hk, hl⟩ := List.pairwise_cons.1 hl
    rw [Mime.setPiece]
    split
    · rename_i hlt
      refine List.pairwise_cons.2 ⟨fun q hq => ?_, List.pairwise_cons.2 ⟨hk, hl⟩⟩
      rcases List.mem_cons.1 hq with rfl | hq
      · exact hlt
      · exact Int.lt_trans hlt (hk q hq)
    · rename_i hlt
      rw [if_neg fun heq => h.1 heq.symm]
      refine List.pairwise_cons.2 ⟨fun q hq => ?_, ih hl h.2⟩
      rcases List.mem_cons.1 ((setPiece_perm h.2 piece).mem_iff.1 hq) with rfl | hq
      · have hne := h.1
        show k < i
        omega
      · exact hk q hq

/-- Two maps in order with the same entries. -/
theorem Ordered.eq_of_perm {l l' : List (Int × Bytes)} (hl : Ordered l) (hl' : Ordered l')
    (h : l.Perm l') : l = l' :=
  h.eq_of_pairwise (fun _ _ _ _ hab hba => absurd (Int.lt_trans hab hba) (Int.lt_irrefl _)) hl hl'

/-! ## Collecting -/

/-- What has been collected behind these parameters. -/
def collected (label : CharsetLabel) (st : Parameter) (rs : List Role) : Parameter :=
  rs.foldl (Role.add label) st

/-- Other parameters add nothing. -/
theorem collected_own (label : CharsetLabel) (st : Parameter) (rs : List Role) :
    collected label st rs = collected label st (rs.filter Role.isOwn) := by
  induction rs generalizing st with
  | nil => rfl
  | cons r rs ih =>
    show collected label (r.add label st) rs = _
    rw [ih, List.filter_cons]
    cases r with
    | other v => rfl
    | _ => rfl

theorem collected_fallbacks (label : CharsetLabel) {rs : List Role}
    (h : ∀ r ∈ rs, ∃ v, r = .fallback v) (st : Parameter) :
    (collected label st rs).continuations = st.continuations := by
  induction rs generalizing st with
  | nil => rfl
  | cons r rs ih =>
    rw [List.forall_mem_cons] at h
    obtain ⟨⟨v, rfl⟩, hrs⟩ := h
    exact ih hrs _

/-- A segment under its number. -/
def numbered (label : CharsetLabel) (q : Segment × Nat) : Int × Bytes :=
  (q.2, (Role.segment q.2 q.1).reads label)

/-- Segments are put in order, whatever order they come in. -/
theorem collected_segments (label : CharsetLabel) {qs : List (Segment × Nat)} {st : Parameter}
    (hst : Ordered st.continuations) (hnew : ∀ q ∈ qs, ∀ e ∈ st.continuations, e.1 ≠ (q.2 : Int))
    (hqs : (qs.map Prod.snd).Nodup) :
    let out := collected label st (qs.map fun q => .segment q.2 q.1)
    Ordered out.continuations ∧
      out.continuations.Perm (qs.map (numbered label) ++ st.continuations) ∧
        out.simple = st.simple ∧ out.extended = (st.extended || qs.any fun q => q.1.isExtended) := by
  induction qs generalizing st with
  | nil => simp [collected, hst]
  | cons q qs ih =>
    rw [List.forall_mem_cons] at hnew
    rw [List.map_cons, List.nodup_cons] at hqs
    obtain ⟨s, k⟩ := q
    have hset := setPiece_perm hnew.1 ((Role.segment k s).reads label)
    have hfresh : ∀ q ∈ qs, ∀ e ∈ ((Role.segment k s).add label st).continuations,
        e.1 ≠ (q.2 : Int) := by
      intro q hq e he
      rcases List.mem_cons.1 (hset.mem_iff.1 he) with rfl | he
      · intro heq
        have hk : k = q.2 := Int.ofNat.inj heq
        exact hqs.1 (List.mem_map.2 ⟨q, hq, hk.symm⟩)
      · exact hnew.2 q hq e he
    obtain ⟨hordered, hperm, hsimple, hextended⟩ := ih (hst.setPiece hnew.1 _) hfresh hqs.2
    refine ⟨hordered, hperm.trans ?_, hsimple, ?_⟩
    · refine (List.Perm.append_left _ hset).trans ?_
      exact List.perm_middle
    · rw [List.any_cons, ← Bool.or_assoc]
      exact hextended

theorem Conveys.numbered {name : Bytes} {f : Form} {fallback : Option ValueText} {ps : List Sent}
    (h : Conveys name f fallback ps) (hnumbered : f.Numbered) : ∀ p ∈ ps, p.role.Numbered := by
  intro p hp
  by_cases hown : p.role.isOwn = true
  · have hmem : p.role ∈ ownRoles ps :=
      List.mem_filter.2 ⟨List.mem_map_of_mem hp, hown⟩
    rcases List.mem_append.1 (h.own.mem_iff.1 hmem) with hmem | hmem
    · obtain ⟨v, -, hv⟩ := Option.map_eq_some_iff.1 (Option.mem_toList.1 hmem)
      rw [← hv]
      trivial
    · cases f with
      | single us =>
        rw [List.mem_singleton.1 hmem]
        trivial
      | continued first rest =>
        obtain ⟨⟨s, k⟩, hq, hrole⟩ := List.mem_map.1 hmem
        have hk := (List.mem_zipIdx hq).2.1
        rw [← hrole]
        show k < 2 ^ 31
        rw [List.length_cons] at hk
        have hcount : rest.length < 2 ^ 31 := hnumbered
        omega
  · cases hrole : p.role with
    | other v => trivial
    | _ => exact absurd (by rw [hrole]; rfl) hown

/-! ## Reading -/

section

variable {icu : Converter}

/-- The part of `fieldParameter` behind the loop. -/
def readParameter (icu : Converter) (st : Parameter) : Bytes :=
  let joined := st.simple ++ st.continuations.flatMap Prod.snd
  if joined = [] then []
  else if st.extended then
    let first := find joined 39 0
    let second := first.bind fun i => find joined 39 (i + 1)
    match first, second with
    | some i, some j => toUtf8 icu (percentDecode (joined.drop (j + 1))) (joined.take i)
    | _, _ => toUtf8 icu (percentDecode joined) []
  else decodeEncodedWords icu joined

/-- The parameters of the name, in the order they stand in, are all that is read. -/
theorem fieldParameter_eq {name main : Bytes} {f : Form} {fallback : Option ValueText}
    {ps : List Sent} (hmain : ∀ c ∈ main, c ∉ marks ∧ c ≠ chr ';') (h : Conveys name f fallback ps)
    (hnumbered : f.Numbered) (label : CharsetLabel) :
    fieldParameter icu (sentField main label ps) name =
      readParameter icu (collected label {} (ownRoles ps)) := by
  have hfold (st : Parameter) {qs : List Sent} (hqs : ∀ p ∈ qs, p ∈ ps) :
      (qs.map (Sent.text label)).foldl (addPiece (lower name)) st =
        collected label st (qs.map Sent.role) := by
    induction qs generalizing st with
    | nil => rfl
    | cons p qs ih =>
      rw [List.forall_mem_cons] at hqs
      have hpiece := addPiece_text (h.proper p hqs.1) (h.numbered hnumbered p hqs.1) label st
      rw [List.map_cons, List.foldl_cons, hpiece]
      exact ih _ hqs.2
  have hpass : ∀ t ∈ ps.map (Sent.text label), Passes (chr ';') {} t t {} := by
    intro t ht
    obtain ⟨p, hp, rfl⟩ := List.mem_map.1 ht
    exact (h.proper p hp).passes label
  rw [fieldParameter, sentField, splitOutsideQuotes_joined (by decide) (.plain hmain) hpass,
    List.tail_cons, hfold {} fun p hp => hp, collected_own]
  rfl

theorem trimLower_bare {s : Bytes} (h : ∀ c ∈ s, isSpace c = false ∧ c ≠ chr '"') :
    trimLower s = lower s := by
  have hdrop {t : Bytes} (ht : ∀ c ∈ t, c ∈ s) :
      t.dropWhile (fun c => isSpace c || c = chr '"') = t := by
    cases t with
    | nil => rfl
    | cons c t =>
      obtain ⟨hspace, hquote⟩ := h c (ht c List.mem_cons_self)
      rw [List.dropWhile_cons_of_neg (by simp [hspace, hquote])]
  unfold trimLower
  dsimp only
  rw [hdrop fun c hc => hc, hdrop fun c hc => List.mem_reverse.1 hc, List.reverse_reverse]

/-- Behind the label the escapes are undone. -/
theorem read_extended (label : CharsetLabel) {us : List Spelling} {st : Parameter}
    (hextended : st.extended = true)
    (hjoined : st.simple ++ st.continuations.flatMap Prod.snd = label.text ++ spelled us) :
    readParameter icu st = recoverUtf8 (percentDecode (spelled us)) := by
  have htext : label.text ++ spelled us =
      label.charset ++ 39 :: (label.language ++ 39 :: spelled us) := by simp [CharsetLabel.text]
  have hcharset : (39 : Byte) ∉ label.charset := fun hmem => (label.charset_solid.2 _ hmem).1 rfl
  have hlanguage : (39 : Byte) ∉ label.language := fun hmem =>
    (attributeByte (label.language_plain _ hmem)).2.2.1 rfl
  have hbehind : (label.charset ++ 39 :: (label.language ++ 39 :: spelled us)).drop
      (label.charset.length + 1) = label.language ++ 39 :: spelled us := by
    rw [← List.drop_drop, List.drop_left]
    rfl
  have hfirst := @find_of_append _ _ (label.language ++ 39 :: spelled us) 39 0 rfl hcharset
  have hsecond := find_of_append hbehind hlanguage
  have hrest : (label.charset ++ 39 :: (label.language ++ 39 :: spelled us)).drop
      (label.charset.length + 1 + label.language.length + 1) = spelled us := by
    rw [Nat.add_assoc, ← List.drop_drop, hbehind, ← List.drop_drop, List.drop_left]
    rfl
  have hname : trimLower label.charset = str "utf-8" := by
    rw [trimLower_bare fun c hc => ⟨(label.charset_solid.1 c hc).1, (label.charset_solid.2 c hc).2⟩]
    exact label.charset_utf8
  rw [Nat.zero_add] at hfirst
  have hne : label.charset ++ 39 :: (label.language ++ 39 :: spelled us) ≠ [] := by simp
  unfold readParameter
  dsimp only
  rw [hjoined, htext, if_neg hne, if_pos hextended, hfirst, Option.bind_some, hsecond]
  dsimp only
  rw [hrest, List.take_left, toUtf8, hname]
  split
  · rename_i hnil
    rw [hnil]
    rfl
  · dsimp only
    rw [if_pos (by decide)]

theorem recover_value {us : List Spelling} (hus : ∀ u ∈ us, u.Proper) (hescapes : EscapesOnly us)
    (hutf8 : ValidUtf8 (us.map Spelling.value)) :
    recoverUtf8 (percentDecode (spelled us)) = us.map Spelling.value := by
  rw [(percentDecode_iff hus).2 hescapes, recoverUtf8, if_pos (isValidUtf8_of_validUtf8 hutf8)]

theorem read_literal {st : Parameter} {value : Bytes} (hextended : st.extended = false)
    (hjoined : st.simple ++ st.continuations.flatMap Prod.snd = value) :
    readParameter icu st = decodeEncodedWords icu value := by
  unfold readParameter
  dsimp only
  rw [hjoined, hextended]
  by_cases hnil : value = []
  · rw [if_pos hnil, hnil]
    rfl
  · rw [if_neg hnil, if_neg Bool.false_ne_true]

theorem Spelling.Extended.proper {u : Spelling} (h : u.Extended) : u.Proper := by
  cases u with
  | asIs c => trivial
  | escape d e => exact h

theorem Segment.Proper.units {s : Segment} (h : s.Proper) : ∀ u ∈ s.units, u.Proper := by
  cases s with
  | literal qs =>
    intro u hu
    obtain ⟨q, -, rfl⟩ := List.mem_map.1 hu
    trivial
  | extended us => exact fun u hu => (h u hu).proper

theorem escapesOnly_of_extended {us : List Spelling} (h : ∀ u ∈ us, u.Extended) :
    EscapesOnly us := by
  rintro pre post rfl
  have hpercent : isAttributeByte (chr '%') = true := h (.asIs (chr '%')) (by simp)
  exact absurd hpercent (by decide)

theorem Form.single_units (us : List Spelling) : (Form.single us).units = us :=
  List.append_nil us

theorem Conveys.role_proper {name : Bytes} {f : Form} {fallback : Option ValueText}
    {ps : List Sent} (h : Conveys name f fallback ps) {r : Role} (hr : r ∈ f.roles) :
    ∃ p ∈ ps, p.role = r ∧ p.Proper name := by
  have hmem := List.mem_of_mem_filter (h.own.mem_iff.2 (List.mem_append_right _ hr))
  obtain ⟨p, hp, hrole⟩ := List.mem_map.1 hmem
  exact ⟨p, hp, hrole, h.proper p hp⟩

theorem Conveys.units_proper {name : Bytes} {f : Form} {fallback : Option ValueText}
    {ps : List Sent} (h : Conveys name f fallback ps) : ∀ u ∈ f.units, u.Proper := by
  intro u hu
  obtain ⟨s, hs, hu⟩ := List.mem_flatMap.1 hu
  refine Segment.Proper.units ?_ u hu
  cases f with
  | single us =>
    obtain ⟨⟨role, key, lead, beforeEq, afterEq, trail⟩, -, rfl, hp⟩ :=
      h.role_proper (List.mem_singleton.2 rfl)
    rw [List.mem_singleton.1 hs]
    exact hp.role.2
  | continued first rest =>
    obtain ⟨k, hk⟩ := List.mem_iff_getElem?.1 hs
    have hrole : Role.segment k s ∈ (Form.continued first rest).roles :=
      List.mem_map.2 ⟨(s, k), List.mem_zipIdx_iff_getElem?.2 hk, rfl⟩
    obtain ⟨⟨role, key, lead, beforeEq, afterEq, trail⟩, -, rfl, hp⟩ := h.role_proper hrole
    exact hp.role.2

theorem read_single {name : Bytes} {us : List Spelling} {fallback : Option ValueText}
    {ps : List Sent} (h : Conveys name (.single us) fallback ps)
    (hread : Readable (.single us) fallback ps) (label : CharsetLabel) :
    readParameter icu (collected label {} (ownRoles ps)) = (Form.single us).value := by
  obtain ⟨front, hfront⟩ := List.getLast?_eq_some_iff.1 hread
  have hperm : front.Perm (fallback.map Role.fallback).toList := by
    have hown := h.own
    rw [hfront] at hown
    exact (List.perm_append_right_iff _).1 hown
  have hfallbacks : ∀ r ∈ front, ∃ v, r = .fallback v := by
    intro r hr
    obtain ⟨v, -, hv⟩ := Option.map_eq_some_iff.1 (Option.mem_toList.1 (hperm.mem_iff.1 hr))
    exact ⟨v, hv.symm⟩
  have hnone := collected_fallbacks label hfallbacks {}
  have hlast : collected label {} (front ++ [.single us]) =
      (Role.single us).add label (collected label {} front) := List.foldl_concat ..
  have hextended : ∀ u ∈ us, u.Extended := by
    obtain ⟨⟨role, key, lead, beforeEq, afterEq, trail⟩, -, rfl, hp⟩ :=
      h.role_proper (List.mem_singleton.2 rfl)
    exact hp.role.2
  have hutf8 := h.utf8
  rw [Form.value, Form.single_units] at hutf8 ⊢
  have hread : readParameter icu (collected label {} (ownRoles ps)) =
      recoverUtf8 (percentDecode (spelled us)) := by
    rw [hfront, hlast]
    refine read_extended label rfl ?_
    show _ ++ (collected label {} front).continuations.flatMap Prod.snd = _
    rw [hnone]
    exact List.append_nil _
  exact hread.trans (recover_value (fun u hu => (hextended u hu).proper)
    (escapesOnly_of_extended hextended) hutf8)

/-- The octets of a segment, behind the label where it stands in front. -/
theorem reads_segment (label : CharsetLabel) (s : Segment) (k : Nat) :
    (Role.segment k s).reads label =
      (if k = 0 ∧ s.isExtended = true then label.text else []) ++ spelled s.units := by
  cases s with
  | literal qs =>
    rw [if_neg fun hs => Bool.false_ne_true hs.2]
    show qs.map QuotedOctet.octet = spelled (qs.map fun q => .asIs q.octet)
    rw [spelled, List.flatMap_map]
    exact List.map_eq_flatMap
  | extended us =>
    show (if k = 0 then label.text else []) ++ spelled us = _
    simp [Segment.isExtended, Segment.units]

theorem joined_behind (label : CharsetLabel) (ss : List Segment) {k : Nat} (hk : k ≠ 0) :
    ((ss.zipIdx k).map (numbered label)).flatMap Prod.snd =
      spelled (ss.flatMap Segment.units) := by
  induction ss generalizing k with
  | nil => rfl
  | cons s ss ih =>
    have hhead : (numbered label (s, k)).2 = spelled s.units := by
      refine (reads_segment label s k).trans ?_
      rw [if_neg fun h => hk h.1, List.nil_append]
    rw [List.zipIdx_cons, List.map_cons, List.flatMap_cons, List.flatMap_cons, hhead,
      ih k.succ_ne_zero, spelled_append]

theorem joined_segments (label : CharsetLabel) (first : Segment) (rest : List Segment) :
    (((first :: rest).zipIdx).map (numbered label)).flatMap Prod.snd =
      (if first.isExtended = true then label.text else []) ++
        spelled (Form.continued first rest).units := by
  have hhead : (numbered label (first, 0)).2 =
      (if first.isExtended = true then label.text else []) ++ spelled first.units := by
    refine (reads_segment label first 0).trans ?_
    simp
  have hunits : (Form.continued first rest).units =
      first.units ++ rest.flatMap Segment.units := List.flatMap_cons
  rw [List.zipIdx_cons, List.map_cons, List.flatMap_cons, hhead,
    joined_behind label rest (Nat.succ_ne_zero 0), hunits, spelled_append, List.append_assoc]

theorem ordered_segments (label : CharsetLabel) (ss : List Segment) (k : Nat) :
    Ordered ((ss.zipIdx k).map (numbered label)) := by
  induction ss generalizing k with
  | nil => exact List.Pairwise.nil
  | cons s ss ih =>
    rw [List.zipIdx_cons, List.map_cons]
    refine List.pairwise_cons.2 ⟨fun e he => ?_, ih (k + 1)⟩
    obtain ⟨q, hq, rfl⟩ := List.mem_map.1 he
    have hle := List.le_snd_of_mem_zipIdx hq
    show (k : Int) < (q.2 : Int)
    omega

theorem spelled_literal {ss : List Segment} (h : ∀ s ∈ ss, s.isExtended = false) :
    spelled (ss.flatMap Segment.units) = (ss.flatMap Segment.units).map Spelling.value := by
  induction ss with
  | nil => rfl
  | cons s ss ih =>
    rw [List.forall_mem_cons] at h
    rw [List.flatMap_cons, spelled_append, ih h.2, List.map_append]
    cases s with
    | literal qs =>
      congr 1
      show (qs.map fun q => Spelling.asIs q.octet).flatMap Spelling.text =
        (qs.map fun q => Spelling.asIs q.octet).map Spelling.value
      rw [List.flatMap_map, List.map_map]
      exact List.map_eq_flatMap.symm
    | extended us => cases h.1

/-- Segments are read in their order, whatever order they stand in. -/
theorem read_continued {name : Bytes} {first : Segment} {rest : List Segment} {ps : List Sent}
    (h : Conveys name (.continued first rest) none ps) (label : CharsetLabel) :
    readParameter icu (collected label {} (ownRoles ps)) =
      if (Form.continued first rest).isExtended then
        recoverUtf8 (percentDecode (spelled (Form.continued first rest).units))
      else decodeEncodedWords icu (Form.continued first rest).value := by
  obtain ⟨qs, hroles, hperm⟩ : ∃ qs : List (Segment × Nat),
      ownRoles ps = qs.map (fun q => .segment q.2 q.1) ∧ qs.Perm (first :: rest).zipIdx := by
    have hown : (ownRoles ps).Perm
        ((first :: rest).zipIdx.map fun q => Role.segment q.2 q.1) := h.own
    exact (congrFun₂ (List.eq_map_comp_perm _) _ _).mpr hown
  have hnodup : (qs.map Prod.snd).Nodup := by
    rw [(hperm.map Prod.snd).nodup_iff, List.zipIdx_map_snd]
    exact List.nodup_range'
  obtain ⟨hordered, hentries, hsimple, hany⟩ :=
    @collected_segments label qs {} List.Pairwise.nil (fun _ _ _ he => nomatch he) hnodup
  rw [List.append_nil] at hentries
  have hmap := hordered.eq_of_perm (ordered_segments label (first :: rest) 0)
    (hentries.trans (hperm.map _))
  have hextended : (collected label {} (ownRoles ps)).extended =
      (Form.continued first rest).isExtended := by
    have hsegments : (first :: rest).zipIdx.map Prod.fst = first :: rest :=
      List.zipIdx_map_fst 0 _
    rw [hroles, hany, hperm.any_eq]
    show (false || _) = (first :: rest).any Segment.isExtended
    conv_rhs => rw [← hsegments, List.any_map]
    rw [Bool.false_or]
    rfl
  have hjoined : (collected label {} (ownRoles ps)).simple ++
      (collected label {} (ownRoles ps)).continuations.flatMap Prod.snd =
        (if first.isExtended = true then label.text else []) ++
          spelled (Form.continued first rest).units := by
    rw [hroles, hsimple, hmap]
    exact joined_segments label first rest
  cases hform : (Form.continued first rest).isExtended with
  | true =>
    rw [if_pos (h.first_extended hform first rfl)] at hjoined
    rw [if_pos rfl]
    exact read_extended label (hextended.trans hform) hjoined
  | false =>
    have hliteral : ∀ s ∈ first :: rest, s.isExtended = false := by
      simpa [Form.isExtended, Form.segments] using hform
    rw [hliteral first List.mem_cons_self, if_neg Bool.false_ne_true, List.nil_append] at hjoined
    rw [if_neg Bool.false_ne_true]
    exact read_literal (hextended.trans hform) (hjoined.trans (spelled_literal hliteral))

/-- A value is read back; where no part of it is extended, for encoded words. -/
theorem fieldParameter_conveyed {name main : Bytes} {f : Form} {fallback : Option ValueText}
    {ps : List Sent} (hmain : ∀ c ∈ main, c ∉ marks ∧ c ≠ chr ';') (h : Conveys name f fallback ps)
    (hnumbered : f.Numbered) (hread : Readable f fallback ps) (label : CharsetLabel) :
    fieldParameter icu (sentField main label ps) name =
      if f.isExtended then f.value else decodeEncodedWords icu f.value := by
  rw [fieldParameter_eq hmain h hnumbered]
  cases f with
  | single us => exact read_single h hread label
  | continued first rest =>
    obtain ⟨rfl, hescapes⟩ := id hread
    rw [read_continued h]
    split
    · rename_i hextended
      exact recover_value h.units_proper (hescapes hextended) h.utf8
    · rfl

/-! ## What is lost -/

theorem recoverUtf8_eq_ascii {s v : Bytes} (hv : ∀ c ∈ v, c < 0x80) : recoverUtf8 s = v ↔ s = v := by
  have hhigh : ∀ c : Byte, ¬ c < 0x80 → ∃ d ∈ windows1252ToUtf8 [c], ¬ d < 0x80 :=
    forall_byte (by decide +kernel)
  constructor
  · intro h
    unfold recoverUtf8 at h
    split at h
    · exact h
    · rename_i hinvalid
      refine absurd (isValidUtf8_of_ascii fun c hc => ?_) hinvalid
      by_contra hc'
      obtain ⟨d, hd, hd'⟩ := hhigh c hc'
      refine hd' (hv d ?_)
      rw [← h]
      refine List.mem_flatMap.2 ⟨c, hc, ?_⟩
      simpa [windows1252ToUtf8] using hd
  · rintro rfl
    rw [recoverUtf8, if_pos (isValidUtf8_of_ascii hv)]

/-- Next to an extended segment a percent sign with two octets behind it is never kept. -/
theorem percent_kept_iff {name main : Bytes} {first : Segment} {rest : List Segment}
    {ps : List Sent} (hmain : ∀ c ∈ main, c ∉ marks ∧ c ≠ chr ';')
    (h : Conveys name (.continued first rest) none ps) (hcount : rest.length < 2 ^ 31)
    (hextended : (Form.continued first rest).isExtended = true)
    (hascii : ∀ c ∈ (Form.continued first rest).value, c < 0x80) (label : CharsetLabel) :
    fieldParameter icu (sentField main label ps) name = (Form.continued first rest).value ↔
      EscapesOnly (Form.continued first rest).units := by
  rw [fieldParameter_eq hmain h hcount, read_continued h, if_pos hextended,
    recoverUtf8_eq_ascii hascii]
  exact percentDecode_iff h.units_proper

example : fieldParameter (fun _ _ => none)
    (str "attachment; filename*0*=utf-8''a; filename*1=\"%41.txt\"") (str "filename") =
      str "aA.txt" := by decide +kernel

/-- A fallback behind the extended parameter is read in its place. -/
theorem fallback_behind {name main : Bytes} {us : List Spelling} {v : ValueText} {ps : List Sent}
    (hmain : ∀ c ∈ main, c ∉ marks ∧ c ≠ chr ';') (h : Conveys name (.single us) (some v) ps)
    (hlast : (ownRoles ps).getLast? = some (.fallback v)) (label : CharsetLabel) :
    fieldParameter icu (sentField main label ps) name = decodeEncodedWords icu v.value := by
  obtain ⟨front, hfront⟩ := List.getLast?_eq_some_iff.1 hlast
  have hsingle : front = [.single us] := by
    have hown : (front ++ [Role.fallback v]).Perm ([Role.single us] ++ [Role.fallback v]) :=
      hfront ▸ h.own.trans (.swap _ _ _)
    exact List.perm_singleton.1 ((List.perm_append_right_iff _).1 hown)
  rw [fieldParameter_eq hmain h trivial, hfront, hsingle]
  exact read_literal rfl (List.append_nil _)

example : fieldParameter (fun _ _ => none) (str "attachment; filename*=utf-8''x; filename=\"y\"")
    (str "filename") = str "y" := by decide +kernel

end

def unlabelled : CharsetLabel where
  charset := str "UTF-8"
  language := []
  charset_utf8 := by decide
  language_plain := by simp

/-- The octets of a text, none of them escaped. -/
def literalOctets (s : Bytes) : List QuotedOctet := s.map fun c => ⟨false, c⟩

/-- `size=3; filename*1=" 100%"; FILENAME*0*=UTF-8''caf%C3%A9` -/
def menu : List Sent := [
  { role := .other (.token (str "3")), key := str "size", lead := str " " },
  { role := .segment 1 (.literal (literalOctets (str " 100%"))), key := str "filename",
    lead := str " " },
  { role := .segment 0 (.extended ((str "caf").map .asIs ++ [.escape (chr 'C') (chr '3'),
      .escape (chr 'A') (chr '9')])),
    key := str "FILENAME", lead := str " " }]

def menuForm : Form := .continued
  (.extended ((str "caf").map .asIs ++ [.escape (chr 'C') (chr '3'), .escape (chr 'A') (chr '9')]))
  [.literal (literalOctets (str " 100%"))]

theorem menu_conveys : Conveys (str "filename") menuForm none menu where
  proper := by decide +kernel
  own := by decide +kernel
  first_extended := by decide
  utf8 := ⟨"café 100%".toList, by decide +kernel⟩

theorem menu_read : fieldParameter (fun _ _ => none) (sentField (str "attachment") unlabelled menu)
    (str "filename") = str "caf" ++ [0xC3, 0xA9] ++ str " 100%" := by
  have hcount : menuForm.Numbered := by
    show 1 < 2 ^ 31
    omega
  have h := @fieldParameter_conveyed (fun _ _ => none) (str "filename") (str "attachment") menuForm
    none menu (by decide +kernel) menu_conveys hcount ⟨rfl, fun _ => by decide +kernel⟩ unlabelled
  exact h.trans (by decide +kernel)

/-- `filename*0="=?utf-8?B?aGk=?=.txt"` -/
def wordSegment : List Sent := [
  { role := .segment 0 (.literal (literalOctets (str "=?utf-8?B?aGk=?=.txt"))),
    key := str "filename", lead := str " " }]

def wordForm : Form := .continued (.literal (literalOctets (str "=?utf-8?B?aGk=?=.txt"))) []

/-- An encoded word is read in a parameter. -/
theorem wordSegment_decoded : Conveys (str "filename") wordForm none wordSegment ∧
    fieldParameter (fun _ _ => none) (sentField (str "attachment") unlabelled wordSegment)
      (str "filename") ≠ wordForm.value := by
  refine ⟨⟨by decide +kernel, by decide +kernel, by decide, ?_⟩, by decide +kernel⟩
  exact ⟨"=?utf-8?B?aGk=?=.txt".toList, by decide +kernel⟩

end Mime
end Imap2Pst
