import Imap2Pst.Mime.Walk
import Imap2Pst.Std.Text
import Mathlib.Data.List.Forall2

/-!
# Mime.HeaderBlob

The header block that goes into the PST, read again. `fieldsOf` is `parseHeaderBlock` without
the offsets; it goes through a text line by line, and what it makes of a decoded value depends on
the line feeds in the value alone.

* `folds` — every line feed is directly followed by a space or a tab, so that it unfolds.
* `sameFields_iff` — when the block of a list of headers reads back as that list.
-/

namespace Imap2Pst
namespace Mime

open CxxStd

/-! ## A block line by line -/

/-- The fields `parseHeaderBlock` reads from `s` on, with `field` being read. -/
def fieldsOf (field : Option HeaderField) (s : Bytes) : List HeaderField :=
  (headerLines field 0 (linesFrom 0 0 [] s)).1

/-- The line begins with a fold. -/
def startsFold (s : Bytes) : Bool := s.head? = some (chr ' ') || s.head? = some (chr '\t')

theorem headerLines_congr {l l' : List (Nat × Bytes × Nat)} {field : Option HeaderField}
    {i j : Nat} (h : l.map (·.2.1) = l'.map (·.2.1)) :
    (headerLines field i l).1 = (headerLines field j l').1 := by
  induction l generalizing l' field i j with
  | nil =>
    rw [List.map_nil, eq_comm, List.map_eq_nil_iff] at h
    subst h
    rfl
  | cons x l ih =>
    obtain ⟨y, l', rfl⟩ : ∃ y l₂, l' = y :: l₂ := by
      cases l' with
      | nil => cases h
      | cons y l' => exact ⟨y, l', rfl⟩
    obtain ⟨a, line, b⟩ := x
    obtain ⟨a', line', b'⟩ := y
    simp only [List.map_cons, List.cons.injEq] at h
    obtain ⟨rfl, h⟩ := h
    unfold headerLines
    dsimp only
    split
    · rfl
    · split
      · exact ih h
      · split
        · rfl
        · dsimp only
          rw [ih h]

theorem linesFrom_line {l rest line : Bytes} {start i : Nat} (hl : (10 : Byte) ∉ l) :
    linesFrom start i line (l ++ 10 :: rest) = (start, line ++ l, i + l.length + 1) ::
      linesFrom (i + l.length + 1) (i + l.length + 1) [] rest := by
  induction l generalizing line i with
  | nil => simp [linesFrom]
  | cons c l ih =>
    obtain ⟨hc, hl⟩ := not_or.1 (mt List.mem_cons.2 hl)
    rw [List.cons_append, linesFrom, if_neg (Ne.symm hc), ih hl, List.append_assoc,
      List.length_cons, Nat.add_right_comm i 1, Nat.add_assoc i]
    rfl

theorem linesFrom_map (s line : Bytes) (start i start' i' : Nat) :
    (linesFrom start i line s).map (·.2.1) = (linesFrom start' i' line s).map (·.2.1) := by
  induction s generalizing line start i start' i' with
  | nil =>
    unfold linesFrom
    split <;> rfl
  | cons c s ih =>
    unfold linesFrom
    split
    · rw [List.map_cons, List.map_cons, ih]
    · exact ih ..

theorem stripLineCr_cases (l : Bytes) : stripLineCr l = l ∨ l = stripLineCr l ++ [13] := by
  unfold stripLineCr
  split
  · rename_i h
    obtain ⟨a, rfl⟩ := List.getLast?_eq_some_iff.1 h
    right
    rw [List.dropLast_concat]
  · exact .inl rfl

theorem trim_stripLineCr (l : Bytes) : trim (stripLineCr l) = trim l := by
  rcases stripLineCr_cases l with h | h
  · rw [h]
  · have hcr : Blank [13] := blank_cons.2 ⟨rfl, blank_nil⟩
    conv_rhs => rw [h]
    rw [trim_append_blank hcr]

/-- One line of a block. -/
theorem fieldsOf_line {field : Option HeaderField} {l rest : Bytes} (hl : (10 : Byte) ∉ l) :
    fieldsOf field (l ++ 10 :: rest) =
      if stripLineCr l = [] then field.toList
      else if startsFold (stripLineCr l) then
        fieldsOf (field.map fun f => { f with value := f.value ++ chr ' ' :: trim l }) rest
      else match find (stripLineCr l) (chr ':') 0 with
        | none => field.toList
        | some colon => field.toList ++ fieldsOf (some ⟨trim ((stripLineCr l).take colon),
            trim ((stripLineCr l).drop (colon + 1))⟩) rest := by
  have hcongr (field : Option HeaderField) (i : Nat) :
      (headerLines field i (linesFrom i i [] rest)).1 = fieldsOf field rest :=
    headerLines_congr (linesFrom_map rest [] i i 0 0)
  have htrim := trim_stripLineCr l
  have hstart : fieldsOf field (l ++ 10 :: rest) = (headerLines field 0 ((0, l, 0 + l.length + 1) ::
      linesFrom (0 + l.length + 1) (0 + l.length + 1) [] rest)).1 := by
    unfold fieldsOf
    rw [linesFrom_line hl, List.nil_append]
  rw [hstart, headerLines]
  dsimp only
  split
  · rename_i hnil
    rw [if_pos hnil]
  · rename_i c t hcons
    have hfold : startsFold (stripLineCr l) = (c = chr ' ' || c = chr '\t') := by
      simp [startsFold, hcons]
    have hne : ¬ stripLineCr l = [] := by
      rw [hcons]
      exact List.cons_ne_nil c t
    simp only [if_neg hne, hfold]
    split
    · rw [htrim]
      exact hcongr _ _
    · cases find (stripLineCr l) (chr ':') 0 with
      | none => rfl
      | some colon =>
        dsimp only
        rw [hcongr]

theorem fieldsOf_fold {f : HeaderField} {l rest : Bytes} (hl : (10 : Byte) ∉ l)
    (hfold : startsFold l = true) :
    fieldsOf (some f) (l ++ 10 :: rest) =
      fieldsOf (some { f with value := f.value ++ chr ' ' :: trim l }) rest := by
  have hstrip : stripLineCr l ≠ [] ∧ startsFold (stripLineCr l) = true := by
    cases l with
    | nil => cases hfold
    | cons c l =>
      rcases stripLineCr_cases (c :: l) with h | h
      · rw [h]
        exact ⟨List.cons_ne_nil c l, hfold⟩
      · generalize stripLineCr (c :: l) = t at h
        cases t with
        | nil =>
          cases h
          cases hfold
        | cons d t =>
          cases h
          exact ⟨List.cons_ne_nil c t, hfold⟩
  rw [fieldsOf_line hl, if_neg hstrip.1, if_pos hstrip.2]
  rfl

/-- A line that is no fold ends the field before it. -/
theorem fieldsOf_other {f : HeaderField} {l rest : Bytes} (hl : (10 : Byte) ∉ l)
    (hfold : startsFold l = false) :
    ∃ tail, fieldsOf (some f) (l ++ 10 :: rest) = f :: tail ∧ (chr ':' ∉ l → tail = []) := by
  rw [fieldsOf_line hl]
  split
  · exact ⟨[], rfl, fun _ => rfl⟩
  · rename_i hne
    have hstrip : startsFold (stripLineCr l) = false := by
      rcases stripLineCr_cases l with h | h
      · rw [h, hfold]
      · generalize stripLineCr l = t at h hne
        subst h
        cases t with
        | nil => exact absurd rfl hne
        | cons d t => exact hfold
    rw [hstrip, if_neg Bool.false_ne_true]
    split
    · exact ⟨[], rfl, fun _ => rfl⟩
    · rename_i colon hcolon
      refine ⟨_, rfl, fun hno => ?_⟩
      have hmem : chr ':' ∉ stripLineCr l := by
        rcases stripLineCr_cases l with h | h
        · rwa [h]
        · intro hin
          rw [h] at hno
          exact hno (List.mem_append_left _ hin)
      rw [find_eq_none (s := stripLineCr l) (i := 0) hmem] at hcolon
      cases hcolon

/-- What a name of `parseHeaderBlock` is made of. -/
structure FieldName (name : Bytes) : Prop where
  trimmed : trim name = name
  noColon : chr ':' ∉ name
  noFeed : (10 : Byte) ∉ name

theorem fieldsOf_field {field : Option HeaderField} {name l rest : Bytes} (hname : FieldName name)
    (hl : (10 : Byte) ∉ l) :
    fieldsOf field (name ++ str ": " ++ l ++ 10 :: rest) =
      field.toList ++ fieldsOf (some ⟨name, trim l⟩) rest := by
  have hline : (10 : Byte) ∉ name ++ str ": " ++ l := by
    simp only [List.mem_append, not_or]
    exact ⟨⟨hname.noFeed, by decide⟩, hl⟩
  -- the carriage return that is stripped is one of the value, if there is one
  obtain ⟨t, hstrip, htrim⟩ : ∃ t, stripLineCr (name ++ str ": " ++ l) =
      name ++ str ": " ++ t ∧ trim t = trim l := by
    rcases List.eq_nil_or_concat' l with rfl | ⟨a, c, rfl⟩
    · refine ⟨[], ?_, rfl⟩
      unfold stripLineCr
      rw [List.append_nil, if_neg]
      simp [str]
    · rw [← List.append_assoc]
      unfold stripLineCr
      rw [List.getLast?_concat]
      split
      · rename_i hc
        cases hc
        refine ⟨a, List.dropLast_concat, ?_⟩
        rw [trim_append_blank (blank_cons.2 ⟨rfl, blank_nil⟩)]
      · exact ⟨a ++ [c], List.append_assoc _ _ _, rfl⟩
  have htail : name ++ str ": " ++ t = name ++ chr ':' :: chr ' ' :: t := by simp [str, chr]
  have hcolon : find (name ++ chr ':' :: chr ' ' :: t) (chr ':') 0 = some name.length := by
    have h := find_of_append (s := name ++ chr ':' :: chr ' ' :: t) (i := 0) rfl hname.noColon
    rwa [Nat.zero_add] at h
  have hfold : startsFold (name ++ chr ':' :: chr ' ' :: t) = false := by
    cases hn : name with
    | nil => rfl
    | cons c name =>
      have hc := trim_head (s := c :: name) (c := c) (by rw [← hn, hname.trimmed, hn]; rfl)
      simp only [startsFold, List.cons_append, List.head?_cons, Option.some.injEq,
        Bool.or_eq_false_iff, decide_eq_false_iff_not]
      constructor <;> rintro rfl <;> cases hc
  rw [fieldsOf_line hline, hstrip, htail, if_neg (by simp), hfold, if_neg Bool.false_ne_true, hcolon]
  have hvalue : (name ++ chr ':' :: chr ' ' :: t).drop (name.length + 1) = [chr ' '] ++ t := by
    rw [← List.drop_drop, List.drop_left]
    rfl
  dsimp only
  rw [List.take_left, hname.trimmed, hvalue, trim_blank_append (blank_cons.2 ⟨rfl, blank_nil⟩), htrim]

/-! ## Values that unfold -/

/-- Every line feed is directly followed by a space or a tab. -/
def folds : Bytes → Bool
  | [] => true
  | c :: s => (c ≠ 10 || startsFold s) && folds s

theorem folds_cons {c : Byte} {s : Bytes} :
    folds (c :: s) = true ↔ (c = 10 → startsFold s = true) ∧ folds s = true := by
  by_cases hc : c = 10 <;> simp [folds, hc]

theorem startsFold_append {a b : Bytes} (ha : a ≠ []) : startsFold (a ++ b) = startsFold a := by
  obtain ⟨c, a, rfl⟩ := List.exists_cons_of_ne_nil ha
  rfl

theorem folds_of_append {a b : Bytes} (h : folds (a ++ b) = true) (ha : ∀ x, a ≠ x ++ [10]) :
    folds a = true := by
  induction a with
  | nil => rfl
  | cons c a ih =>
    rw [List.cons_append, folds_cons] at h
    rw [folds_cons]
    refine ⟨fun hc => ?_, ih h.2 fun x hx => ha (c :: x) (by rw [hx]; rfl)⟩
    have hne : a ≠ [] := by
      rintro rfl
      exact ha [] (by rw [hc]; rfl)
    rw [← startsFold_append hne]
    exact h.1 hc

theorem folds_line {l s : Bytes} (h : folds (l ++ 10 :: s) = true) :
    startsFold s = true ∧ folds s = true := by
  induction l with
  | nil =>
    rw [List.nil_append, folds_cons] at h
    exact ⟨h.1 rfl, h.2⟩
  | cons c l ih => exact ih (folds_cons.1 h).2

theorem folds_concat_cr (v : Bytes) : folds (v ++ [13]) = folds v := by
  induction v with
  | nil => rfl
  | cons c v ih =>
    have hstart : startsFold (v ++ [13]) = startsFold v := by cases v <;> rfl
    rw [List.cons_append, folds, folds, hstart, ih]

/-- A value unfolds up to its first line feed that is not a fold. -/
theorem folds_or_split (v : Bytes) : folds v = true ∨
    ∃ p q, v = p ++ 10 :: q ∧ folds p = true ∧ startsFold q = false := by
  induction v with
  | nil => exact .inl rfl
  | cons c v ih =>
    by_cases hhere : c = 10 ∧ startsFold v = false
    · obtain ⟨rfl, hv⟩ := hhere
      exact .inr ⟨[], v, rfl, rfl, hv⟩
    · have hc : c = 10 → startsFold v = true := by
        intro hc
        by_contra hv
        exact hhere ⟨hc, Bool.eq_false_iff.2 hv⟩
      rcases ih with h | ⟨p, q, rfl, hp, hq⟩
      · exact .inl (folds_cons.2 ⟨hc, h⟩)
      · refine .inr ⟨c :: p, q, rfl, folds_cons.2 ⟨fun h => ?_, hp⟩, hq⟩
        have hne : p ≠ [] := by
          rintro rfl
          cases hc h
        rw [← startsFold_append hne]
        exact hc h

/-- What unfolding a text leaves of it: no line feed, and the same text unless a line feed lies
within it. -/
structure Unfolded (p g : Bytes) : Prop where
  noFeed : (10 : Byte) ∉ g
  same : (10 : Byte) ∉ trim p → trim g = trim p

theorem trim_fold (l : Bytes) : trim (chr ' ' :: trim l) = trim l := by
  rw [← List.singleton_append, trim_blank_append (blank_cons.2 ⟨rfl, blank_nil⟩), trim_trim]

theorem unfolded_line {l s u g : Bytes} (hu : (10 : Byte) ∉ u)
    (htrim : trim u = trim l) (hg : Unfolded s g) : Unfolded (l ++ 10 :: s) (u ++ g) := by
  refine ⟨fun h => ?_, fun h => ?_⟩
  · rcases List.mem_append.1 h with h | h
    · exact hu h
    · exact hg.noFeed h
  · have hfeed : Blank [10] := blank_cons.2 ⟨rfl, blank_nil⟩
    by_cases hblank : Blank l
    · have hrest : trim (l ++ 10 :: s) = trim s := by
        rw [trim_blank_append hblank, ← List.singleton_append, trim_blank_append hfeed]
      have hu' : Blank u := trim_eq_nil.1 (htrim.trans (trim_eq_nil.2 hblank))
      rw [hrest] at h
      rw [hrest, trim_blank_append hu', hg.same h]
    · have hs : Blank s := by
        by_contra hs
        exact h (mem_trim_middle hblank hs)
      have hnil := trim_eq_nil.2 hs
      have hg' : Blank g := trim_eq_nil.1 ((hg.same (by rw [hnil]; exact List.not_mem_nil)).trans hnil)
      rw [trim_append_blank hg', htrim, trim_append_blank (blank_cons.2 ⟨rfl, hs⟩)]

theorem fieldsOf_folds {p : Bytes} (hp : folds p = true) (hstart : startsFold p = true) :
    ∃ g, Unfolded p g ∧ ∀ f rest, fieldsOf (some f) (p ++ 10 :: rest) =
      fieldsOf (some { f with value := f.value ++ g }) rest := by
  induction p using line_induction with
  | last l hl =>
    refine ⟨chr ' ' :: trim l, ⟨?_, fun _ => trim_fold l⟩, fun f rest => fieldsOf_fold hl hstart⟩
    rw [List.mem_cons, not_or]
    exact ⟨by decide, mt mem_of_mem_trim hl⟩
  | line l s hl ih =>
    obtain ⟨hs, hsfolds⟩ := folds_line hp
    obtain ⟨g, hg, hrest⟩ := ih hsfolds hs
    have hline : startsFold l = true := by
      rwa [startsFold_append] at hstart
      rintro rfl
      cases hstart
    have hfeed : (10 : Byte) ∉ chr ' ' :: trim l := by
      rw [List.mem_cons, not_or]
      exact ⟨by decide, mt mem_of_mem_trim hl⟩
    refine ⟨chr ' ' :: trim l ++ g, unfolded_line hfeed (trim_fold l) hg, fun f rest => ?_⟩
    rw [List.append_assoc, List.cons_append, fieldsOf_fold hl hline, hrest, List.append_assoc]

/-- A header line whose value unfolds is one field. -/
theorem fieldsOf_value {name p : Bytes} (hname : FieldName name) (hp : folds p = true) :
    ∃ g, Unfolded p g ∧ ∀ field rest, fieldsOf field (name ++ str ": " ++ p ++ 10 :: rest) =
      field.toList ++ fieldsOf (some ⟨name, g⟩) rest := by
  induction p using line_induction with
  | last l hl =>
    exact ⟨trim l, ⟨mt mem_of_mem_trim hl, fun _ => trim_trim l⟩,
      fun field rest => fieldsOf_field hname hl⟩
  | line l s hl =>
    obtain ⟨hs, hsfolds⟩ := folds_line hp
    obtain ⟨g, hg, hrest⟩ := fieldsOf_folds hsfolds hs
    refine ⟨trim l ++ g, unfolded_line (mt mem_of_mem_trim hl) (trim_trim l) hg,
      fun field rest => ?_⟩
    rw [← List.append_assoc, List.append_assoc _ (10 :: s), List.cons_append, fieldsOf_field hname hl,
      hrest]

/-- What does not begin with a fold ends the field. -/
theorem fieldsOf_break {q : Bytes} (hq : startsFold q = false) (f : HeaderField) (rest : Bytes) :
    ∃ tail, fieldsOf (some f) (q ++ 10 :: rest) = f :: tail ∧ (Blank q → tail = []) := by
  have hcolon {l : Bytes} (hl : Blank l) : chr ':' ∉ l := fun h => by cases hl _ h
  induction q using line_induction with
  | last l hl =>
    obtain ⟨tail, heq, htail⟩ := fieldsOf_other hl hq
    exact ⟨tail, heq, fun h => htail (hcolon h)⟩
  | line l s hl _ =>
    have hline : startsFold l = false := by
      cases l with
      | nil => rfl
      | cons c l => exact hq
    obtain ⟨tail, heq, htail⟩ := @fieldsOf_other f l (s ++ 10 :: rest) hl hline
    refine ⟨tail, ?_, fun h => htail (hcolon (blank_append.1 h).1)⟩
    rw [List.append_assoc, List.cons_append, heq]

/-! ## The block of a list of headers -/

/-- The lines of one header. -/
def fieldText (h : RawHeader) : Bytes := h.name ++ str ": " ++ h.value ++ [13, 10]

/-- The same field, up to white space at the ends of its value. -/
structure SameField (h : RawHeader) (f : HeaderField) : Prop where
  name : h.name = f.name
  value : trim h.value = trim f.value

/-- The values keep to their fields: no line feed within a text, and all before the end of the
text unfold; in a value with a field after it, those behind the text as well. -/
def keepsFields : List Bytes → Bool
  | [] => true
  | [v] => (10 : Byte) ∉ trim v && folds (trimRight v)
  | v :: vs => (10 : Byte) ∉ trim v && folds v && keepsFields vs

theorem fieldText_append (h : RawHeader) (rest : Bytes) :
    fieldText h ++ rest = h.name ++ str ": " ++ (h.value ++ [13]) ++ 10 :: rest := by
  simp only [fieldText, List.append_assoc, List.cons_append, List.nil_append]

/-- A header ends the field before it. -/
theorem fieldsOf_blob {hs : List RawHeader} (hnames : ∀ h ∈ hs, FieldName h.name)
    (f : HeaderField) :
    fieldsOf (some f) (hs.flatMap fieldText) = f :: fieldsOf none (hs.flatMap fieldText) := by
  cases hs with
  | nil => rfl
  | cons h hs =>
    have hname := hnames h List.mem_cons_self
    rw [List.flatMap_cons, fieldText_append]
    rcases folds_or_split (h.value ++ [13]) with hv | ⟨p, q, hv, hp, _⟩
    · obtain ⟨g, _, hg⟩ := fieldsOf_value hname hv
      rw [hg, hg]
      rfl
    · obtain ⟨g, _, hg⟩ := fieldsOf_value hname hp
      rw [hv, ← List.append_assoc, List.append_assoc _ (10 :: q), List.cons_append, hg, hg]
      rfl

theorem trim_concat_cr (v : Bytes) : trim (v ++ [13]) = trim v :=
  trim_append_blank (blank_cons.2 ⟨rfl, blank_nil⟩)

theorem trimRight_concat_cr (v : Bytes) : trimRight (v ++ [13]) = trimRight v :=
  trimRight_append_blank (blank_cons.2 ⟨rfl, blank_nil⟩)

theorem folds_trimRight {p : Bytes} (hp : folds p = true) : folds (trimRight p) = true := by
  obtain ⟨b, hb, _⟩ := exists_trimRight p
  rw [hb] at hp
  refine folds_of_append hp fun x hx => ?_
  have hspace := trimRight_last hx
  cases hspace

/-- What a value that unfolds leaves is its text exactly if no line feed lies within that. -/
theorem Unfolded.same_iff {v g : Bytes} (hg : Unfolded (v ++ [13]) g) :
    trim v = trim g ↔ (10 : Byte) ∉ trim v := by
  refine ⟨fun h hin => ?_, fun h => ?_⟩
  · rw [h] at hin
    exact hg.noFeed (mem_of_mem_trim hin)
  · rw [← trim_concat_cr] at h ⊢
    exact (hg.same h).symm

/-- A value that breaks off after `p` keeps its text only if all of it stands in `p`. -/
theorem broken_same_iff {v p q g : Bytes} (hv : v ++ [13] = p ++ 10 :: q) (hp : folds p = true)
    (hg : Unfolded p g) :
    trim v = trim g ↔ Blank q ∧ (10 : Byte) ∉ trim v ∧ folds (trimRight v) = true := by
  have htrim : trim v = trim (p ++ 10 :: q) := by rw [← trim_concat_cr, hv]
  have hfeed : isSpace 10 = true := rfl
  constructor
  · intro h
    have hno : (10 : Byte) ∉ trim v := by
      intro hin
      rw [h] at hin
      exact hg.noFeed (mem_of_mem_trim hin)
    have hblank : Blank q := by
      by_contra hq
      have hblank : Blank p := by
        by_contra hp
        rw [htrim] at hno
        exact hno (mem_trim_middle hp hq)
      have hnil := trim_eq_nil.2 hblank
      rw [hg.same (by rw [hnil]; exact List.not_mem_nil), hnil, htrim, trim_eq_nil] at h
      exact hq (blank_cons.1 (blank_append.1 h).2).2
    refine ⟨hblank, hno, ?_⟩
    rw [← trimRight_concat_cr, hv, trimRight_append_blank (blank_cons.2 ⟨hfeed, hblank⟩)]
    exact folds_trimRight hp
  · rintro ⟨hblank, hno, _⟩
    rw [trim_append_blank (blank_cons.2 ⟨hfeed, hblank⟩)] at htrim
    rw [htrim] at hno ⊢
    exact (hg.same hno).symm

theorem blank_of_folds {v p q : Bytes} (hv : v ++ [13] = p ++ 10 :: q)
    (hq : startsFold q = false) (h : folds (trimRight v) = true) : Blank q := by
  by_contra hblank
  have hright : trimRight v = p ++ 10 :: trimRight q := by
    have hcons : ¬ Blank (10 :: q) := fun h => hblank (blank_cons.1 h).2
    rw [← trimRight_concat_cr, hv, trimRight_append hcons, ← List.singleton_append,
      trimRight_append hblank]
    rfl
  rw [hright] at h
  have hstart := (folds_line h).1
  obtain ⟨b, hb, _⟩ := exists_trimRight q
  rw [hb, startsFold_append, hstart] at hq
  · cases hq
  · intro hnil
    rw [hnil] at hstart
    cases hstart

theorem sameFields_iff {hs : List RawHeader} (hnames : ∀ h ∈ hs, FieldName h.name) :
    List.Forall₂ SameField hs (fieldsOf none (hs.flatMap fieldText)) ↔
      keepsFields (hs.map RawHeader.value) = true := by
  induction hs with
  | nil =>
    refine ⟨fun _ => rfl, fun _ => ?_⟩
    exact List.Forall₂.nil
  | cons h hs ih =>
    have hname := hnames h List.mem_cons_self
    have hrest := fun x hx => hnames x (List.mem_cons_of_mem h hx)
    rw [List.flatMap_cons, fieldText_append]
    rcases folds_or_split (h.value ++ [13]) with hv | ⟨p, q, hv, hp, hq⟩
    · obtain ⟨g, hg, htext⟩ := fieldsOf_value hname hv
      rw [htext, fieldsOf_blob hrest, Option.toList_none, List.nil_append, List.forall₂_cons,
        ih hrest]
      rw [folds_concat_cr] at hv
      have hsame : SameField h ⟨h.name, g⟩ ↔ (10 : Byte) ∉ trim h.value :=
        ⟨fun hs => hg.same_iff.1 hs.value, fun hs => ⟨rfl, hg.same_iff.2 hs⟩⟩
      rw [hsame]
      cases hs with
      | nil => simp [keepsFields, folds_trimRight hv]
      | cons x hs => simp [keepsFields, hv]
    · obtain ⟨g, hg, htext⟩ := fieldsOf_value hname hp
      obtain ⟨tail, hbreak, htail⟩ := fieldsOf_break hq ⟨h.name, g⟩ (hs.flatMap fieldText)
      have hbroken := broken_same_iff hv hp hg
      rw [hv, ← List.append_assoc, List.append_assoc _ (10 :: q), List.cons_append, htext, hbreak,
        Option.toList_none, List.nil_append, List.forall₂_cons]
      constructor
      · rintro ⟨hsame, hall⟩
        obtain ⟨hblank, hno, hright⟩ := hbroken.1 hsame.value
        rw [htail hblank, List.forall₂_nil_right_iff] at hall
        subst hall
        simp [keepsFields, hno, hright]
      · intro hkeeps
        cases hs with
        | nil =>
          simp only [List.map_cons, List.map_nil, keepsFields, Bool.and_eq_true,
            decide_eq_true_eq] at hkeeps
          have hblank := blank_of_folds hv hq hkeeps.2
          rw [htail hblank]
          exact ⟨⟨rfl, hbroken.2 ⟨hblank, hkeeps⟩⟩, .nil⟩
        | cons x hs =>
          -- a value that breaks off loses the field after it
          simp only [List.map_cons, keepsFields, Bool.and_eq_true] at hkeeps
          have hfolds := hkeeps.1.2
          rw [← folds_concat_cr, hv] at hfolds
          rw [(folds_line hfolds).1] at hq
          cases hq

/-! ## The names of a block -/

theorem fieldName_of_line {line : Bytes} {colon : Nat} (hl : (10 : Byte) ∉ line)
    (h : find line (chr ':') 0 = some colon) : FieldName (trim (line.take colon)) := by
  refine ⟨trim_trim _, fun hin => ?_, fun hin => ?_⟩
  · obtain ⟨j, hj, rfl⟩ := Option.map_eq_some_iff.1 h
    obtain ⟨hlt, _, hbefore⟩ := List.findIdx?_eq_some_iff_getElem.1 hj
    obtain ⟨k, hk, hget⟩ := List.getElem_of_mem (mem_of_mem_trim hin)
    rw [List.length_take] at hk
    rw [List.getElem_take] at hget
    exact hbefore k (by omega) (beq_iff_eq.2 hget)
  · exact hl (List.mem_of_mem_take (mem_of_mem_trim hin))

theorem noFeed_of_mem_linesFrom {s line : Bytes} {start i : Nat} (hline : (10 : Byte) ∉ line)
    {x : Nat × Bytes × Nat} (hx : x ∈ linesFrom start i line s) : (10 : Byte) ∉ x.2.1 := by
  induction s generalizing line start i with
  | nil =>
    unfold linesFrom at hx
    split at hx
    · cases hx
    · rw [List.mem_singleton.1 hx]
      exact hline
  | cons c s ih =>
    unfold linesFrom at hx
    split at hx
    · rcases List.mem_cons.1 hx with rfl | hx
      · exact hline
      · exact ih List.not_mem_nil hx
    · rename_i hc
      refine ih ?_ hx
      rw [List.mem_append, List.mem_singleton, not_or]
      exact ⟨hline, Ne.symm hc⟩

theorem headerLines_names {ls : List (Nat × Bytes × Nat)} {field : Option HeaderField} {i : Nat}
    (hls : ∀ x ∈ ls, (10 : Byte) ∉ x.2.1) (hfield : ∀ f ∈ field, FieldName f.name) :
    ∀ f ∈ (headerLines field i ls).1, FieldName f.name := by
  have htoList : ∀ f ∈ field.toList, FieldName f.name := by
    intro f hf
    exact hfield f (Option.mem_toList.1 hf)
  induction ls generalizing field i with
  | nil => exact htoList
  | cons x ls ih =>
    obtain ⟨start, line, next⟩ := x
    have hrest := fun x hx => hls x (List.mem_cons_of_mem _ hx)
    have hline : (10 : Byte) ∉ stripLineCr line := by
      intro hin
      refine hls _ List.mem_cons_self ?_
      rcases stripLineCr_cases line with h | h
      · rwa [h] at hin
      · rw [h]
        exact List.mem_append_left _ hin
    unfold headerLines
    dsimp only
    split
    · exact htoList
    · split
      · have hmap : ∀ f ∈ field.map fun f =>
            { f with value := f.value ++ chr ' ' :: trim (stripLineCr line) }, FieldName f.name := by
          intro f hf
          obtain ⟨f₀, hf₀, rfl⟩ := Option.map_eq_some_iff.1 hf
          exact hfield f₀ hf₀
        exact ih hrest hmap fun f hf => hmap f (Option.mem_toList.1 hf)
      · split
        · exact htoList
        · rename_i colon hcolon
          intro f hf
          rcases List.mem_append.1 hf with hf | hf
          · exact htoList f hf
          · have hname := fieldName_of_line hline hcolon
            have hnew : ∀ f ∈ some (⟨trim ((stripLineCr line).take colon),
                trim ((stripLineCr line).drop (colon + 1))⟩ : HeaderField), FieldName f.name := by
              intro f hf
              cases hf
              exact hname
            exact ih hrest hnew (fun f hf => hnew f (Option.mem_toList.1 hf)) f hf

theorem parseHeaderBlock_names (source : Bytes) :
    ∀ f ∈ (parseHeaderBlock source).1, FieldName f.name := by
  refine headerLines_names (fun x hx => noFeed_of_mem_linesFrom List.not_mem_nil hx) ?_
  intro f hf
  cases hf

/-! ## Decoding and the structure of the block -/

section

variable (icu : Converter)

/-- Reading the stored block gives the headers of the message again. -/
def BlobReadsBack (m : Message) : Prop :=
  List.Forall₂ SameField m.headers (parseHeaderBlock m.headerBlob).1

theorem parseSource_headers (source : Bytes) : (parseSource icu source).headers =
    (parseHeaderBlock source).1.map fun h => ⟨h.name, headerText icu h.value⟩ := by
  unfold parseSource buildMessage parseEntity
  rw [buildMessageAt_headers, parseEntityAt_headers]

theorem blobReadsBack_iff_keepsFields (source : Bytes) :
    BlobReadsBack (parseSource icu source) ↔
      keepsFields ((parseSource icu source).headers.map RawHeader.value) = true := by
  refine sameFields_iff fun h hh => ?_
  rw [parseSource_headers] at hh
  obtain ⟨f, hf, rfl⟩ := List.mem_map.1 hh
  exact parseHeaderBlock_names source f hf

/-- Decoding leaves the structure of a header block alone exactly if what it makes of the values
keeps to the fields. -/
theorem blob_reads_back_iff (source : Bytes) :
    BlobReadsBack (parseSource icu source) ↔
      keepsFields ((parseHeaderBlock source).1.map fun h => headerText icu h.value) = true := by
  rw [blobReadsBack_iff_keepsFields, parseSource_headers, List.map_map]
  exact Iff.rfl

/-- The encoded words of a text, decoded, in the order `decodeWordsFrom` meets them. -/
def decodedWordsFrom (skip : Nat) : Bytes → List Bytes
  | [] => []
  | c :: cs =>
    match skip with
    | skip + 1 => decodedWordsFrom skip cs
    | 0 =>
      match (if isEncodedWordStart (c :: cs) then decodeOneWord icu (c :: cs) else none) with
      | some (decoded, consumed) => decoded :: decodedWordsFrom (consumed - 1) cs
      | none => decodedWordsFrom 0 cs

variable {icu}

theorem feed_in_decodeWordsFrom {s : Bytes} {skip pending : Nat} {encoded : Bool}
    (h : (10 : Byte) ∈ decodeWordsFrom icu skip pending encoded s) :
    ∃ word ∈ decodedWordsFrom icu skip s, (10 : Byte) ∈ word := by
  have hspaces (n : Nat) : (10 : Byte) ∉ List.replicate n (chr ' ') := by
    intro h
    cases (List.mem_replicate.1 h).2
  induction s generalizing skip pending encoded with
  | nil => exact absurd h (hspaces pending)
  | cons c cs ih =>
    unfold decodeWordsFrom at h
    unfold decodedWordsFrom
    cases skip with
    | succ skip => exact ih h
    | zero =>
      dsimp only at h ⊢
      obtain ⟨found, hword⟩ : ∃ found, (if isEncodedWordStart (c :: cs) then
        decodeOneWord icu (c :: cs) else none) = found := ⟨_, rfl⟩
      rw [hword] at h ⊢
      cases found with
      | some found =>
        rcases List.mem_append.1 h with h | h
        · rcases List.mem_append.1 h with h | h
          · split at h
            · cases h
            · exact absurd h (hspaces pending)
          · exact ⟨found.1, List.mem_cons_self, h⟩
        · obtain ⟨word, hin, hfeed⟩ := ih h
          exact ⟨word, List.mem_cons_of_mem found.1 hin, hfeed⟩
      | none =>
        dsimp only at h
        split at h
        · exact ih h
        · rename_i hc
          rcases List.mem_append.1 h with h | h
          · exact absurd h (hspaces pending)
          · rcases List.mem_cons.1 h with rfl | h
            · exact absurd rfl hc
            · exact ih h

theorem folds_of_noFeed {v : Bytes} (h : (10 : Byte) ∉ v) : folds v = true := by
  induction v with
  | nil => rfl
  | cons c v ih =>
    obtain ⟨hc, hv⟩ := not_or.1 (mt List.mem_cons.2 h)
    exact folds_cons.2 ⟨fun h => absurd h.symm hc, ih hv⟩

theorem keepsFields_of_noFeed {vs : List Bytes} (h : ∀ v ∈ vs, (10 : Byte) ∉ v) :
    keepsFields vs = true := by
  induction vs with
  | nil => rfl
  | cons v vs ih =>
    have hv := h v List.mem_cons_self
    have htrim := mt mem_of_mem_trim hv
    cases vs with
    | nil => simp [keepsFields, htrim, folds_trimRight (folds_of_noFeed hv)]
    | cons w vs => simp [keepsFields, htrim, folds_of_noFeed hv, ih fun v hv => h v (.tail _ hv)]

variable (icu)

/-- Only an encoded word with a line feed in it can upset the block. -/
theorem blob_reads_back_of_words (source : Bytes)
    (h : ∀ f ∈ (parseHeaderBlock source).1, ∀ word ∈ decodedWordsFrom icu 0 (recoverUtf8 f.value),
      (10 : Byte) ∉ word) : BlobReadsBack (parseSource icu source) := by
  rw [blobReadsBack_iff_keepsFields, parseSource_headers, List.map_map]
  refine keepsFields_of_noFeed fun v hv hfeed => ?_
  obtain ⟨f, hf, rfl⟩ := List.mem_map.1 hv
  obtain ⟨word, hword, hin⟩ := feed_in_decodeWordsFrom hfeed
  exact h f hf word hword hin

end

/-- A subject with an encoded line feed in it, and what looks like a header behind. -/
def forgedHeader : Bytes := str "Subject: =?utf-8?Q?hello=0AX-Forged:_yes?=\n\nbody\n"

/-- One header is stored, two are read back. -/
theorem encoded_line_feed_forges_a_header :
    ¬ BlobReadsBack (parseSource (fun _ _ => none) forgedHeader) := by
  intro h
  have hlen := h.length_eq
  revert hlen
  decide +kernel

end Mime
end Imap2Pst
