import Imap2Pst.Imap.Parse
import Imap2Pst.Std.Ranges
import Mathlib.Algebra.Order.BigOperators.Group.List
import Mathlib.Data.Nat.Digits.Lemmas

/-!
# Imap.UidSet

The sequence sets `uidSet` writes, read back by the grammar of IMAP: numbers and ranges `lo:hi`
with commas between them.

* `readSet`      — the elements of a sequence set.
* `uidSet_eq`    — `uidSet` writes the runs of the list.
* `uidSet_exact` — they stand for the UIDs of the list, and no shorter set does.
-/

namespace Imap2Pst
namespace Imap

open CxxStd

/-! ## The grammar -/

inductive SeqElement where
  | number (n : Nat)
  | range (lo hi : Nat)
  deriving DecidableEq, Repr

namespace SeqElement

/-- The first and the last number of an element, in the order written. -/
def ends : SeqElement → Nat × Nat
  | number n => (n, n)
  | range lo hi => (lo, hi)

/-- The numbers written down. -/
def numbers : SeqElement → List Nat
  | number n => [n]
  | range lo hi => [lo, hi]

def text : SeqElement → Bytes
  | number n => decimal n
  | range lo hi => decimal lo ++ 58 :: decimal hi

end SeqElement

/-- The numbers a sequence set stands for. -/
def denoted (es : List SeqElement) : Set Nat := covered (es.map SeqElement.ends)

def readNumber (s : Bytes) : Option Nat :=
  if s ≠ [] ∧ s.all isDigit then some (digitsVal s) else none

def readElement (s : Bytes) : Option SeqElement :=
  match s.splitOn 58 with
  | [n] => (readNumber n).map .number
  | [lo, hi] => (readNumber lo).bind fun lo => (readNumber hi).map fun hi => .range lo hi
  | _ => none

/-- The elements of a sequence set; the empty text has none. -/
def readSet (s : Bytes) : Option (List SeqElement) :=
  if s = [] then some [] else (s.splitOn 44).mapM readElement

def setText (es : List SeqElement) : Bytes := [44].intercalate (es.map SeqElement.text)

/-! ## What is written is read -/

theorem readNumber_decimal (n : Nat) : readNumber (decimal n) = some n := by
  have hall : (decimal n).all isDigit = true := List.all_eq_true.2 fun c => isDigit_of_mem_decimal
  rw [readNumber, if_pos ⟨decimal_ne_nil n, hall⟩, digitsVal_decimal]

theorem readElement_text (e : SeqElement) : readElement e.text = some e := by
  have hcolon (n : Nat) : (58 : Byte) ∉ decimal n := not_mem_decimal (by decide) n
  cases e with
  | number n =>
    have hsplit : (decimal n).splitOn 58 = [decimal n] := by
      have hone : ∀ s ∈ [decimal n], (58 : Byte) ∉ s := by simpa using hcolon n
      simpa using List.splitOn_intercalate 58 hone (List.cons_ne_nil _ _)
    rw [SeqElement.text, readElement, hsplit]
    dsimp only
    rw [readNumber_decimal]
    rfl
  | range lo hi =>
    have hsplit : (decimal lo ++ 58 :: decimal hi).splitOn 58 = [decimal lo, decimal hi] := by
      have htwo : ∀ s ∈ [decimal lo, decimal hi], (58 : Byte) ∉ s := by
        simpa using ⟨hcolon lo, hcolon hi⟩
      simpa [List.intercalate_cons_cons] using
        List.splitOn_intercalate 58 htwo (List.cons_ne_nil _ _)
    rw [SeqElement.text, readElement, hsplit]
    dsimp only
    rw [readNumber_decimal, readNumber_decimal]
    rfl

theorem comma_not_mem_text (e : SeqElement) : (44 : Byte) ∉ e.text := by
  have hcomma (n : Nat) : (44 : Byte) ∉ decimal n := not_mem_decimal (by decide) n
  cases e with
  | number n => exact hcomma n
  | range lo hi =>
    rw [SeqElement.text, List.mem_append, List.mem_cons]
    rintro (h | h | h)
    · exact hcomma lo h
    · exact absurd h (by decide)
    · exact hcomma hi h

theorem text_ne_nil (e : SeqElement) : e.text ≠ [] := by
  cases e with
  | number n => exact decimal_ne_nil n
  | range lo hi => exact List.append_ne_nil_of_left_ne_nil (decimal_ne_nil lo) _

theorem setText_cons (e : SeqElement) (es : List SeqElement) :
    setText (e :: es) = e.text ++ if es = [] then [] else 44 :: setText es := by
  cases es with
  | nil => simp [setText]
  | cons e' es => simp [setText, List.intercalate_cons_cons]

theorem mapM_readElement (es : List SeqElement) :
    (es.map SeqElement.text).mapM readElement = some es := by
  induction es with
  | nil => rfl
  | cons e es ih =>
    rw [List.map_cons, List.mapM_cons, readElement_text, ih]
    rfl

theorem readSet_setText (es : List SeqElement) : readSet (setText es) = some es := by
  cases es with
  | nil => rfl
  | cons e es =>
    have hne : setText (e :: es) ≠ [] := by
      rw [setText_cons]
      exact List.append_ne_nil_of_left_ne_nil (text_ne_nil e) _
    have hcomma : ∀ s ∈ (e :: es).map SeqElement.text, (44 : Byte) ∉ s := by
      intro s hs
      obtain ⟨e', -, rfl⟩ := List.mem_map.1 hs
      exact comma_not_mem_text e'
    have hsplit : (setText (e :: es)).splitOn 44 = (e :: es).map SeqElement.text :=
      List.splitOn_intercalate 44 hcomma (List.cons_ne_nil _ _)
    rw [readSet, if_neg hne, hsplit, mapM_readElement]

/-! ## Runs -/

/-- The element `uidRange` writes. -/
def runElement (lo hi : UInt32) (many : Bool) : SeqElement :=
  if many then .range lo.toNat hi.toNat else .number lo.toNat

/-- The elements `uidRuns` writes. -/
def runElements (lo hi : UInt32) (many : Bool) : List UInt32 → List SeqElement
  | [] => [runElement lo hi many]
  | u :: us =>
    if u = hi + 1 then runElements lo u true us
    else runElement lo hi many :: runElements u u false us

theorem uidRange_eq (lo hi : UInt32) (many : Bool) :
    uidRange lo hi many = (runElement lo hi many).text := by
  cases many
  · simp [uidRange, runElement, SeqElement.text]
  · rfl

theorem runElements_ne_nil (lo hi : UInt32) (many : Bool) (us : List UInt32) :
    runElements lo hi many us ≠ [] := by
  induction us generalizing lo hi many with
  | nil => exact List.cons_ne_nil _ _
  | cons u us ih =>
    rw [runElements]
    split
    · exact ih lo u true
    · exact List.cons_ne_nil _ _

theorem uidRuns_eq (lo hi : UInt32) (many : Bool) (us : List UInt32) :
    uidRuns lo hi many us = setText (runElements lo hi many us) := by
  induction us generalizing lo hi many with
  | nil => simp [uidRuns, runElements, setText, uidRange_eq]
  | cons u us ih =>
    rw [uidRuns, runElements]
    split
    · exact ih lo u true
    · rw [setText_cons, if_neg (runElements_ne_nil u u false us), uidRange_eq, ih]

/-- The runs of a list of UIDs. -/
def uidElements : List UInt32 → List SeqElement
  | [] => []
  | u :: us => runElements u u false us

theorem uidSet_eq (uids : List UInt32) : uidSet uids = setText (uidElements uids) := by
  cases uids with
  | nil => rfl
  | cons u us => exact uidRuns_eq u u false us

/-- A run under way: it is written as a range when it has more than one number. -/
structure Run (lo hi : UInt32) (many : Bool) : Prop where
  le : lo.toNat ≤ hi.toNat
  many : many = true ↔ lo.toNat < hi.toNat

namespace Run

variable {lo hi u : UInt32} {many : Bool}

theorem single (u : UInt32) : Run u u false := ⟨le_refl _, by simp⟩

/-- In a sorted list the successor of a UID does not wrap around. -/
theorem next_toNat (h : u = hi + 1) (hle : hi ≤ u) : u.toNat = hi.toNat + 1 := by
  have hnat : u.toNat = (hi.toNat + 1) % 2 ^ 32 := by rw [h, UInt32.toNat_add]; rfl
  have hle' := UInt32.le_iff_toNat_le.1 hle
  have hlt := u.toNat_lt
  omega

theorem extend (h : Run lo hi many) (hu : u.toNat = hi.toNat + 1) : Run lo u true := by
  have hle := h.le
  exact ⟨by omega, by simp; omega⟩

theorem ends (h : Run lo hi many) : (runElement lo hi many).ends = (lo.toNat, hi.toNat) := by
  cases many with
  | true => rfl
  | false =>
    have hle := h.le
    have hnot : ¬ lo.toNat < hi.toNat := fun hlt => Bool.false_ne_true (h.many.2 hlt)
    have heq : lo.toNat = hi.toNat := by omega
    simp [runElement, SeqElement.ends, heq]

theorem written (h : Run lo hi many) {a b : Nat} (he : runElement lo hi many = .range a b) :
    a < b := by
  cases many with
  | true =>
    cases he
    exact h.many.1 rfl
  | false => cases he

theorem mem_cons (h : Run lo hi many) {es : List SeqElement} {n : Nat} :
    n ∈ denoted (runElement lo hi many :: es) ↔
      lo.toNat ≤ n ∧ n ≤ hi.toNat ∨ n ∈ denoted es := by
  rw [denoted, List.map_cons, mem_covered_cons, h.ends, Set.uIcc_of_le h.le, Set.mem_Icc]
  rfl

/-- The numbers of the runs are those of the one under way and of the rest of the list. -/
theorem mem_denoted {us : List UInt32} (h : Run lo hi many) (hsorted : (hi :: us).Pairwise (· ≤ ·))
    {n : Nat} : n ∈ denoted (runElements lo hi many us) ↔
      (lo.toNat ≤ n ∧ n ≤ hi.toNat) ∨ n ∈ us.map UInt32.toNat := by
  induction us generalizing lo hi many with
  | nil =>
    rw [runElements, h.mem_cons]
    simp [denoted]
  | cons u us ih =>
    obtain ⟨hfirst, hrest⟩ := List.pairwise_cons.1 hsorted
    rw [runElements, List.map_cons, List.mem_cons, ← or_assoc]
    split
    · rename_i hnext
      have hu := next_toNat hnext (hfirst u List.mem_cons_self)
      have hle := h.le
      rw [ih (h.extend hu) hrest]
      exact or_congr_left (by omega)
    · rw [h.mem_cons, ih (single u) hrest, ← or_assoc]
      exact or_congr_left (or_congr_right (by omega))

theorem range_lt {us : List UInt32} (h : Run lo hi many) (hsorted : (hi :: us).Pairwise (· ≤ ·))
    {a b : Nat} (he : .range a b ∈ runElements lo hi many us) : a < b := by
  induction us generalizing lo hi many with
  | nil => exact h.written (List.mem_singleton.1 he).symm
  | cons u us ih =>
    obtain ⟨hfirst, hrest⟩ := List.pairwise_cons.1 hsorted
    rw [runElements] at he
    split at he
    · rename_i hnext
      exact ih (h.extend (next_toNat hnext (hfirst u List.mem_cons_self))) hrest he
    · rcases List.mem_cons.1 he with heq | he
      · exact h.written heq.symm
      · exact ih (single u) hrest he

/-- No run starts before the one under way. -/
theorem start_le {us : List UInt32} (h : Run lo hi many) (hsorted : (hi :: us).Pairwise (· ≤ ·))
    {e : SeqElement} (he : e ∈ runElements lo hi many us) : lo.toNat ≤ e.ends.1 := by
  induction us generalizing lo hi many with
  | nil => rw [List.mem_singleton.1 he, h.ends]
  | cons u us ih =>
    obtain ⟨hfirst, hrest⟩ := List.pairwise_cons.1 hsorted
    have hu := UInt32.le_iff_toNat_le.1 (hfirst u List.mem_cons_self)
    rw [runElements] at he
    split at he
    · rename_i hnext
      exact ih (h.extend (next_toNat hnext (hfirst u List.mem_cons_self))) hrest he
    · rcases List.mem_cons.1 he with rfl | he
      · rw [h.ends]
      · have hle := h.le
        have hstart := ih (single u) hrest he
        omega

/-- The runs of a list without repetitions do not touch. -/
theorem gapped {us : List UInt32} (h : Run lo hi many) (hsorted : (hi :: us).Pairwise (· < ·)) :
    Gapped ((runElements lo hi many us).map SeqElement.ends) := by
  induction us generalizing lo hi many with
  | nil =>
    rw [runElements, List.map_singleton, h.ends]
    exact ⟨fun r hr => by rw [List.mem_singleton.1 hr]; exact h.le, List.pairwise_singleton _ _⟩
  | cons u us ih =>
    obtain ⟨hfirst, hrest⟩ := List.pairwise_cons.1 hsorted
    have hlt := UInt32.lt_iff_toNat_lt.1 (hfirst u List.mem_cons_self)
    rw [runElements]
    split
    · rename_i hnext
      exact ih (h.extend (next_toNat hnext (UInt32.le_iff_toNat_le.2 hlt.le))) hrest
    · rename_i hnext
      have hgap : hi.toNat + 1 < u.toNat := by
        have hne : u.toNat ≠ hi.toNat + 1 := by
          intro heq
          refine hnext (UInt32.toNat_inj.1 ?_)
          have hu := u.toNat_lt
          rw [heq, UInt32.toNat_add]
          exact (Nat.mod_eq_of_lt (by omega)).symm
        omega
      have htail := ih (single u) hrest
      rw [List.map_cons, h.ends]
      refine ⟨?_, List.pairwise_cons.2 ⟨fun s hs => ?_, htail.apart⟩⟩
      · rintro r hr
        rcases List.mem_cons.1 hr with rfl | hr
        · exact h.le
        · exact htail.ordered r hr
      · obtain ⟨e, he, rfl⟩ := List.mem_map.1 hs
        have hsorted' : (u :: us).Pairwise (· ≤ ·) := hrest.imp fun hlt =>
          UInt32.le_iff_toNat_le.2 (UInt32.lt_iff_toNat_lt.1 hlt).le
        have hstart := (single u).start_le hsorted' he
        dsimp only
        omega

end Run

/-! ## Lengths -/

theorem length_intercalate {c : Byte} {pieces : List Bytes} (h : pieces ≠ []) :
    ([c].intercalate pieces).length + 1 = (pieces.map fun p => p.length + 1).sum := by
  induction pieces with
  | nil => exact absurd rfl h
  | cons p pieces ih =>
    cases pieces with
    | nil => simp
    | cons q pieces =>
      have hrest := ih (List.cons_ne_nil _ _)
      rw [List.intercalate_cons_cons, List.length_append, List.length_append, List.map_cons,
        List.sum_cons, ← hrest, List.length_singleton]
      omega

theorem length_splitOn {s : Bytes} (c : Byte) :
    s.length + 1 = ((s.splitOn c).map fun p => p.length + 1).sum := by
  have h := length_intercalate (c := c) (List.splitOn_ne_nil c s)
  rwa [List.intercalate_splitOn] at h

/-- The octets it takes to write numbers, each with the octet that ends it. -/
def width (ns : List Nat) : Nat := (ns.map fun n => (decimal n).length + 1).sum

theorem width_append (ns ms : List Nat) : width (ns ++ ms) = width ns + width ms := by
  rw [width, List.map_append, List.sum_append]
  rfl

theorem digitsVal_lt {ds : Bytes} (h : ds.all isDigit = true) : digitsVal ds < 10 ^ ds.length := by
  induction ds using List.reverseRecOn with
  | nil => exact Nat.one_pos
  | append_singleton ds c ih =>
    rw [List.all_append, Bool.and_eq_true] at h
    have hds := ih h.1
    have hc : digitVal c < 10 := by
      have hdigit : isDigit c = true := by simpa using h.2
      simp only [isDigit, Bool.and_eq_true, decide_eq_true_eq, UInt8.le_iff_toNat_le] at hdigit
      have hle : c.toNat ≤ 57 := hdigit.2
      unfold digitVal
      omega
    rw [digitsVal_concat, List.length_append, List.length_singleton, pow_succ]
    omega

/-- No run of digits for a number is shorter than `decimal`. -/
theorem decimal_length_le {s : Bytes} {n : Nat} (h : readNumber s = some n) :
    (decimal n).length ≤ s.length := by
  unfold readNumber at h
  split at h
  · rename_i hs
    cases h
    have hlt := digitsVal_lt hs.2
    have hpos := List.length_pos_iff.2 hs.1
    unfold decimal
    split
    · exact hpos
    · rw [List.length_reverse, List.length_map]
      exact (Nat.digits_length_le_iff (by decide) _).2 hlt
  · cases h

theorem width_le_of_readElement {s : Bytes} {e : SeqElement} (h : readElement s = some e) :
    width e.numbers ≤ s.length + 1 := by
  have hpieces := length_splitOn (s := s) 58
  unfold readElement at h
  split at h
  · rename_i piece hsplit
    obtain ⟨n, hn, rfl⟩ := Option.map_eq_some_iff.1 h
    have hle := decimal_length_le hn
    rw [hsplit] at hpieces
    simp only [SeqElement.numbers, width, List.map_cons, List.map_nil, List.sum_cons,
      List.sum_nil] at hpieces ⊢
    omega
  · rename_i left right hsplit
    obtain ⟨lo, hlo, h⟩ := Option.bind_eq_some_iff.1 h
    obtain ⟨hi, hhi, rfl⟩ := Option.map_eq_some_iff.1 h
    have hle := decimal_length_le hlo
    have hle' := decimal_length_le hhi
    rw [hsplit] at hpieces
    simp only [SeqElement.numbers, width, List.map_cons, List.map_nil, List.sum_cons,
      List.sum_nil] at hpieces ⊢
    omega
  · cases h

theorem width_le_of_mapM {pieces : List Bytes} {es : List SeqElement}
    (h : pieces.mapM readElement = some es) :
    width (es.flatMap SeqElement.numbers) ≤ (pieces.map fun p => p.length + 1).sum := by
  induction pieces generalizing es with
  | nil =>
    cases h
    exact le_refl _
  | cons p pieces ih =>
    rw [List.mapM_cons] at h
    obtain ⟨e, he, h⟩ := Option.bind_eq_some_iff.1 h
    obtain ⟨rest, hrest, h⟩ := Option.bind_eq_some_iff.1 h
    cases h
    rw [List.flatMap_cons, width_append, List.map_cons, List.sum_cons]
    exact Nat.add_le_add (width_le_of_readElement he) (ih hrest)

/-- A sequence set is at least as long as its numbers. -/
theorem width_le {s : Bytes} {es : List SeqElement} (h : readSet s = some es) :
    width (es.flatMap SeqElement.numbers) ≤ s.length + 1 := by
  unfold readSet at h
  split at h
  · cases h
    exact Nat.zero_le _
  · rw [length_splitOn 44]
    exact width_le_of_mapM h

theorem width_text (e : SeqElement) : e.text.length + 1 = width e.numbers := by
  cases e with
  | number n => rfl
  | range lo hi =>
    simp only [SeqElement.text, SeqElement.numbers, width, List.length_append, List.length_cons,
      List.map_cons, List.map_nil, List.sum_cons, List.sum_nil]
    omega

theorem width_setText {es : List SeqElement} (h : es ≠ []) :
    (setText es).length + 1 = width (es.flatMap SeqElement.numbers) := by
  have hpieces : es.map SeqElement.text ≠ [] := fun hnil => h (List.map_eq_nil_iff.1 hnil)
  rw [setText, length_intercalate hpieces, List.map_map]
  clear h hpieces
  induction es with
  | nil => rfl
  | cons e es ih =>
    rw [List.map_cons, List.sum_cons, ih, List.flatMap_cons, width_append, ← width_text]
    rfl

theorem width_le_of_subset {ns ms : List Nat} (h : ns.Nodup) (hsub : ns ⊆ ms) :
    width ns ≤ width ms := by
  obtain ⟨l, hperm, hsublist⟩ := h.subperm hsub
  have hsame : width ns = width l := (hperm.symm.map _).sum_eq
  rw [hsame]
  exact (hsublist.map _).sum_le_sum fun a _ => Nat.zero_le a

/-! ## The set -/

theorem numbers_eq_marks {es : List SeqElement} (h : ∀ lo hi, .range lo hi ∈ es → lo < hi) :
    es.flatMap SeqElement.numbers = (es.map SeqElement.ends).flatMap marks := by
  rw [List.flatMap_map]
  refine List.flatMap_congr fun e he => ?_
  cases e with
  | number n => simp [SeqElement.numbers, SeqElement.ends, marks]
  | range lo hi => simp [SeqElement.numbers, SeqElement.ends, marks, (h lo hi he).ne]

theorem mem_numbers {es : List SeqElement} {s : Nat × Nat} {n : Nat}
    (hs : s ∈ es.map SeqElement.ends) (hn : n = s.1 ∨ n = s.2) :
    n ∈ es.flatMap SeqElement.numbers := by
  obtain ⟨e, he, rfl⟩ := List.mem_map.1 hs
  refine List.mem_flatMap.2 ⟨e, he, ?_⟩
  cases e <;> simpa [SeqElement.ends, SeqElement.numbers] using hn

/-- A set of ascending ranges with gaps between them is written as short as can be. -/
theorem setText_shortest {es es' : List SeqElement} {s : Bytes}
    (hgapped : Gapped (es.map SeqElement.ends)) (hlt : ∀ lo hi, .range lo hi ∈ es → lo < hi)
    (hs : readSet s = some es') (hsame : denoted es = denoted es') :
    es.length ≤ es'.length ∧ (setText es).length ≤ s.length := by
  have hlen := hgapped.length_le hsame
  rw [List.length_map, List.length_map] at hlen
  refine ⟨hlen, ?_⟩
  by_cases hnil : es = []
  · rw [hnil]
    exact Nat.zero_le _
  · have hnodup := hgapped.marks_nodup
    have hsub : es.flatMap SeqElement.numbers ⊆ es'.flatMap SeqElement.numbers := by
      intro n hn
      rw [numbers_eq_marks hlt] at hn
      obtain ⟨r, hr, hends⟩ := hgapped.marks_mem hsame hn
      exact mem_numbers hr hends
    rw [← numbers_eq_marks hlt] at hnodup
    have hwidth := width_le_of_subset hnodup hsub
    have htext := width_setText hnil
    have hother := width_le hs
    omega

theorem denoted_uidElements {uids : List UInt32} (h : uids.Pairwise (· ≤ ·)) {n : Nat} :
    n ∈ denoted (uidElements uids) ↔ n ∈ uids.map UInt32.toNat := by
  cases uids with
  | nil => simp [uidElements, denoted]
  | cons u us =>
    rw [uidElements, (Run.single u).mem_denoted h, List.map_cons, List.mem_cons]
    exact or_congr_left (by omega)

theorem range_lt_of_mem_uidElements {uids : List UInt32} (h : uids.Pairwise (· ≤ ·)) (lo hi : Nat)
    (he : .range lo hi ∈ uidElements uids) : lo < hi := by
  cases uids with
  | nil => cases he
  | cons u us => exact (Run.single u).range_lt h he

theorem gapped_uidElements {uids : List UInt32} (h : uids.Pairwise (· < ·)) :
    Gapped ((uidElements uids).map SeqElement.ends) := by
  cases uids with
  | nil => exact ⟨fun r hr => absurd hr List.not_mem_nil, List.Pairwise.nil⟩
  | cons u us => exact (Run.single u).gapped h

/-- A UID set stands for the UIDs asked for, and without repetitions it is the shortest that
does: in elements and in octets. -/
theorem uidSet_exact {uids : List UInt32} (hsorted : uids.Pairwise (· ≤ ·)) :
    ∃ es, readSet (uidSet uids) = some es ∧
      (∀ n, n ∈ denoted es ↔ n ∈ uids.map UInt32.toNat) ∧
      (∀ lo hi, .range lo hi ∈ es → lo < hi) ∧
      (uids.Pairwise (· < ·) →
        (es.map SeqElement.ends).Pairwise (fun r s => r.2 + 1 < s.1) ∧
        (∀ r ∈ es.map SeqElement.ends, r.1 ≤ r.2 ∧ r.2 + 1 ∉ denoted es ∧
          ∀ n, n + 1 = r.1 → n ∉ denoted es) ∧
        ∀ s es', readSet s = some es' → denoted es' = denoted es →
          es.length ≤ es'.length ∧ (uidSet uids).length ≤ s.length) := by
  have hlt := range_lt_of_mem_uidElements hsorted
  rw [uidSet_eq]
  refine ⟨uidElements uids, readSet_setText _, fun n => denoted_uidElements hsorted, hlt,
    fun hstrict => ?_⟩
  have hgapped := gapped_uidElements hstrict
  refine ⟨hgapped.apart, fun r hr => ?_, fun s es' hs hsame => ?_⟩
  · exact ⟨hgapped.ordered r hr, hgapped.above hr, fun n hn => hgapped.below hr hn⟩
  · exact setText_shortest hgapped hlt hs hsame.symm

theorem uidSet_exact_sorted :
    ∃ es, readSet (uidSet [1, 2, 3, 7]) = some es ∧ es.length = 2 ∧
      (∀ n, n ∈ denoted es ↔ n ∈ ([1, 2, 3, 7] : List UInt32).map UInt32.toNat) ∧
      ∀ s es', readSet s = some es' → denoted es' = denoted es → 5 ≤ s.length := by
  obtain ⟨es, hread, hmem, -, hshort⟩ := @uidSet_exact [1, 2, 3, 7] (by decide)
  have hes : readSet (uidSet [1, 2, 3, 7]) = some [.range 1 3, .number 7] := by
    rw [uidSet_eq, readSet_setText]
    rfl
  rw [hes] at hread
  cases hread
  exact ⟨_, hes, rfl, hmem, fun s es' hs hsame => ((hshort (by decide)).2.2 s es' hs hsame).2⟩

end Imap
end Imap2Pst
