import Imap2Pst.Imap.Parse

/-!
# Imap.Wire

What a server sends, and that `splitLines` takes it apart. A line is a sequence of text runs; each
but the last is followed by a literal, whose octets are arbitrary.

* `Line`               — a response line in transit.
* `EndsInCount`        — what makes `splitLines` take a literal.
* `splitLines_respond` — a response splits into the lines it was made of.
-/

namespace Imap2Pst
namespace Imap

open CxxStd

/-- A literal: its announced length, and its octets after the end of the line. -/
def literal (octets : Bytes) : Bytes := 123 :: decimal octets.length ++ [125, 13, 10] ++ octets

/-- Text runs with the literal after each, and the text that ends the line. -/
structure Line where
  parts : List (Bytes × Bytes) := []
  last : Bytes

def textOf : List (Bytes × Bytes) → Bytes → Bytes
  | [], last => last
  | (text, octets) :: parts, last => text ++ literal octets ++ textOf parts last

def Line.text (l : Line) : Bytes := textOf l.parts l.last

def respond (lines : List Line) : Bytes := lines.flatMap fun l => l.text ++ [13, 10]

/-- The text runs stay on their line, and the last does not end like a literal. -/
structure Line.WellFormed (l : Line) : Prop where
  parts : ∀ p ∈ l.parts, 10 ∉ p.1
  last : 10 ∉ l.last
  ends : l.last.getLast? ≠ some 125
  nonempty : l.last ≠ []

/-! ## Physical lines -/

/-- The first physical line of a line. -/
def headOf : List (Bytes × Bytes) → Bytes → Bytes
  | [], last => last
  | (text, octets) :: _, _ => text ++ 123 :: decimal octets.length ++ [125]

/-- What comes after the first physical line. -/
def tailOf (more : Bytes) : List (Bytes × Bytes) → Bytes → Bytes
  | [], _ => more
  | (_, octets) :: parts, last => octets ++ (textOf parts last ++ [13, 10] ++ more)

theorem textOf_split (parts : List (Bytes × Bytes)) (last more : Bytes) :
    textOf parts last ++ [13, 10] ++ more =
      headOf parts last ++ [13] ++ 10 :: tailOf more parts last := by
  cases parts with
  | nil => simp [textOf, headOf, tailOf]
  | cons p parts => simp [textOf, headOf, tailOf, literal]

theorem not_mem_headOf {parts : List (Bytes × Bytes)} {last : Bytes}
    (hparts : ∀ p ∈ parts, (10 : Byte) ∉ p.1) (hlast : 10 ∉ last) :
    (10 : Byte) ∉ headOf parts last := by
  cases parts with
  | nil => exact hlast
  | cons p parts =>
    have hdigits : (10 : Byte) ∉ decimal p.2.length := fun h =>
      absurd (isDigit_of_mem_decimal h) (by decide)
    simp [headOf, hparts p, hdigits]

/-- One physical line, read at `i`. -/
theorem read_line {response head rest : Bytes} {i : Nat}
    (h : response.drop i = head ++ [13] ++ 10 :: rest) (hhead : (10 : Byte) ∉ head) :
    lineEnd response i = i + head.length + 1 ∧
      stripCr (slice response i (lineEnd response i - i)) = head ∧
      response.drop (lineEnd response i + 1) = rest := by
  have hend : lineEnd response i = i + head.length + 1 := by
    rw [lineEnd, find_of_append h (by simp [hhead])]
    simp [Nat.add_assoc]
  refine ⟨hend, ?_, ?_⟩
  · have hlen : i + head.length + 1 - i = (head ++ [13]).length := by simp; omega
    rw [hend, hlen, slice_of_append h]
    simp [stripCr]
  · rw [hend]
    have hdrop := drop_of_append (a := head ++ [13, 10]) (b := rest) (by simpa using h)
    simpa [Nat.add_assoc] using hdrop

/-! ## Counts -/

/-- The octets end in `{digits}`. -/
def EndsInCount (s : Bytes) (n : Nat) : Prop :=
  ∃ before digits, s = before ++ 123 :: (digits ++ [125]) ∧ digits ≠ [] ∧
    (∀ c ∈ digits, isDigit c = true) ∧ strtoul digits = n

theorem slice_count (before digits : Bytes) :
    slice (before ++ 123 :: (digits ++ [125])) (before.length + 1)
      ((before ++ 123 :: (digits ++ [125])).length - before.length - 2) = digits := by
  have hlen : (before ++ 123 :: (digits ++ [125])).length - before.length - 2 = digits.length := by
    simp
  have hdrop : (before ++ 123 :: (digits ++ [125])).drop before.length =
      [123] ++ (digits ++ [125]) := by simp
  rw [hlen]
  exact slice_of_append (drop_of_append hdrop)

theorem trailingLiteral_of_endsInCount {s : Bytes} {n : Nat} (h : EndsInCount s n) :
    trailingLiteral s = some n := by
  obtain ⟨before, digits, rfl, hne, hdigits, rfl⟩ := h
  have hbrace : (123 : Byte) ∉ digits ++ [125] := by
    have hdigit : (123 : Byte) ∉ digits := fun hmem => absurd (hdigits _ hmem) (by decide)
    simp [hdigit]
  have hlast : (before ++ 123 :: (digits ++ [125])).getLast? = some 125 := by
    simp [List.getLast?_append, List.getLast?_cons]
  have hall : digits.all isDigit := List.all_eq_true.2 hdigits
  simp only [trailingLiteral, hlast, if_true, rfind_append_cons hbrace, slice_count, hall]
  rw [if_neg (by simp [hne])]

theorem trailingLiteral_eq_some_iff {s : Bytes} {n : Nat} :
    trailingLiteral s = some n ↔ EndsInCount s n := by
  refine ⟨fun h => ?_, trailingLiteral_of_endsInCount⟩
  rw [trailingLiteral] at h
  split at h
  · rename_i hlast
    obtain ⟨hnone, -⟩ | ⟨pre, post, rfl, hpost, hsome⟩ := exists_rfind s 123
    · rw [hnone] at h
      cases h
    · obtain ⟨digits, rfl⟩ : ∃ digits, post = digits ++ [125] := by
        rw [List.getLast?_append_of_ne_nil _ (List.cons_ne_nil _ _), List.getLast?_cons] at hlast
        cases hend : post.getLast? with
        | none =>
          rw [hend] at hlast
          cases hlast
        | some d =>
          rw [hend] at hlast
          cases hlast
          exact List.getLast?_eq_some_iff.1 hend
      rw [hsome] at h
      dsimp only at h
      rw [slice_count] at h
      split at h
      · cases h
      · rename_i hdigits
        rw [not_or, not_not] at hdigits
        cases h
        exact ⟨pre, digits, rfl, hdigits.1, List.all_eq_true.1 hdigits.2, rfl⟩
  · cases h

theorem trailingLiteral_announce (acc : Bytes) {n : Nat} (hn : n < wordSize) :
    trailingLiteral (acc ++ 123 :: (decimal n ++ [125])) = some n :=
  trailingLiteral_of_endsInCount
    ⟨acc, decimal n, rfl, decimal_ne_nil n, fun _ => isDigit_of_mem_decimal, strtoul_decimal_nil hn⟩

/-! ## Literals -/

/-- The literals of a line are attached to it, and the cursor ends up behind the line. -/
theorem attachLiterals_spec {response : Bytes} (hlen : response.length < 2 ^ 63) (more last : Bytes)
    (hlast : 10 ∉ last) (hends : last.getLast? ≠ some 125) (hne : last ≠ []) :
    ∀ (parts : List (Bytes × Bytes)) (fuel : Nat) (acc : Bytes) (i : Nat),
      (∀ p ∈ parts, (10 : Byte) ∉ p.1) → parts.length < fuel →
      response.drop i = tailOf more parts last →
      ∃ j, attachLiterals response fuel (acc ++ headOf parts last) i =
          .ok (acc ++ textOf parts last, j) ∧ response.drop j = more := by
  intro parts
  induction parts with
  | nil =>
    intro fuel acc i _ hfuel hdrop
    obtain ⟨fuel, rfl⟩ := Nat.exists_eq_add_of_lt hfuel
    have hnone : trailingLiteral (acc ++ last) = none := by
      rw [trailingLiteral, List.getLast?_append_of_ne_nil _ hne, if_neg hends]
    exact ⟨i, by simp [attachLiterals, headOf, textOf, hnone], hdrop⟩
  | cons p parts ih =>
    obtain ⟨text, octets⟩ := p
    intro fuel acc i hparts hfuel hdrop
    obtain ⟨fuel, rfl⟩ : ∃ k, fuel = k + 1 := ⟨fuel - 1, by simp at hfuel; omega⟩
    have hrest : ∀ p ∈ parts, (10 : Byte) ∉ p.1 := fun p hp => hparts p (List.mem_cons_of_mem _ hp)
    have hdrop' : response.drop i = octets ++ (textOf parts last ++ [13, 10] ++ more) := hdrop
    have hsum : i + octets.length ≤ response.length := by
      have := congrArg List.length hdrop'
      simp only [List.length_drop, List.length_append, List.length_cons] at this
      omega
    have hoctets : octets.length < wordSize := by simp only [wordSize]; omega
    have hsize : addSize i octets.length = i + octets.length :=
      addSize_of_lt (by simp only [wordSize]; omega)
    have hphysical : response.drop (i + octets.length) =
        headOf parts last ++ [13] ++ 10 :: tailOf more parts last := by
      rw [drop_of_append hdrop', textOf_split]
    obtain ⟨-, hline, hnext⟩ := read_line hphysical (not_mem_headOf hrest hlast)
    have hlit : trailingLiteral (acc ++ (text ++ 123 :: decimal octets.length ++ [125])) =
        some octets.length := by
      simpa using trailingLiteral_announce (acc ++ text) hoctets
    obtain ⟨j, hj, hmore⟩ := ih fuel (acc ++ text ++ literal octets) _ hrest
      (by simpa using hfuel) hnext
    refine ⟨j, ?_, hmore⟩
    simp only [attachLiterals, headOf, hlit, hsize]
    rw [if_neg (by omega), if_neg (by omega), slice_of_append hdrop', hline]
    simpa [literal, textOf] using hj

/-! ## Responses -/

theorem parts_length_le (parts : List (Bytes × Bytes)) (last : Bytes) :
    parts.length ≤ (textOf parts last).length := by
  induction parts with
  | nil => simp
  | cons p parts ih =>
    simp only [textOf, literal, List.length_append, List.length_cons]
    omega

theorem splitLinesLoop_respond {response : Bytes} (hlen : response.length < 2 ^ 63) :
    ∀ (lines : List Line) (fuel i : Nat), (∀ l ∈ lines, l.WellFormed) → lines.length < fuel →
      response.drop i = respond lines →
      splitLinesLoop response fuel i = .ok (lines.map Line.text) := by
  intro lines
  induction lines with
  | nil =>
    intro fuel i _ hfuel hdrop
    obtain ⟨fuel, rfl⟩ := Nat.exists_eq_add_of_lt hfuel
    have hend : ¬ i < response.length := by
      have := congrArg List.length hdrop
      simp [respond] at this
      omega
    simp [splitLinesLoop, hend]
  | cons l lines ih =>
    intro fuel i hwf hfuel hdrop
    obtain ⟨fuel, rfl⟩ : ∃ k, fuel = k + 1 := ⟨fuel - 1, by simp at hfuel; omega⟩
    have hl := hwf l List.mem_cons_self
    have hphysical : response.drop i =
        headOf l.parts l.last ++ [13] ++ 10 :: tailOf (respond lines) l.parts l.last := by
      rw [hdrop, ← textOf_split]
      simp [respond, Line.text]
    have hlt : i < response.length := by
      by_contra hge
      rw [List.drop_of_length_le (by omega)] at hphysical
      simp at hphysical
    obtain ⟨-, hline, hnext⟩ := read_line hphysical (not_mem_headOf hl.parts hl.last)
    have hparts : l.parts.length < lineFuel response := by
      have htext := parts_length_le l.parts l.last
      have := congrArg List.length hdrop
      simp only [List.length_drop, respond, List.flatMap_cons, List.length_append, Line.text] at this
      simp only [lineFuel]
      omega
    obtain ⟨j, hattach, hmore⟩ := attachLiterals_spec hlen (respond lines) l.last hl.last hl.ends
      hl.nonempty l.parts (lineFuel response) [] _ hl.parts hparts hnext
    simp only [splitLinesLoop, hlt, if_true, hline]
    rw [List.nil_append] at hattach
    rw [hattach, Reply.bind_ok, ih fuel j (fun l' h => hwf l' (List.mem_cons_of_mem _ h))
      (by simpa using hfuel) hmore]
    rfl

/-- A response splits into the lines it was made of. -/
theorem splitLines_respond (lines : List Line) (hwf : ∀ l ∈ lines, l.WellFormed)
    (hlen : (respond lines).length < 2 ^ 63) :
    splitLines (respond lines) = .ok (lines.map Line.text) := by
  refine splitLinesLoop_respond hlen lines _ 0 hwf ?_ rfl
  have hlines : lines.length ≤ (respond lines).length := by
    clear hwf hlen
    induction lines with
    | nil => simp
    | cons l lines ih =>
      simp only [respond, List.flatMap_cons, List.length_append, List.length_cons] at ih ⊢
      omega
  simp only [lineFuel]
  omega

end Imap
end Imap2Pst
