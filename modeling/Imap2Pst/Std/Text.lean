import Imap2Pst.Std.Bytes
import Mathlib.Data.List.DropRight

/-!
# Std.Text

Texts and their ends: what `trim` keeps of a text, and a text as its first line and the rest.

* `Blank` — nothing but white space.
* `line_induction` — induction on the lines of a text.
-/

namespace CxxStd

/-! ## White space at the ends -/

def Blank (s : Bytes) : Prop := ∀ c ∈ s, isSpace c = true

instance (s : Bytes) : Decidable (Blank s) :=
  inferInstanceAs (Decidable (∀ c ∈ s, isSpace c = true))

theorem blank_append {a b : Bytes} : Blank (a ++ b) ↔ Blank a ∧ Blank b := by
  unfold Blank
  exact List.forall_mem_append

@[simp] theorem blank_nil : Blank [] := by
  intro c hc
  cases hc

theorem blank_cons {c : Byte} {s : Bytes} : Blank (c :: s) ↔ isSpace c = true ∧ Blank s :=
  List.forall_mem_cons

/-- `s` without the white space at its end. -/
def trimRight (s : Bytes) : Bytes := s.rdropWhile isSpace

theorem trim_eq (s : Bytes) : trim s = trimRight (s.dropWhile isSpace) := rfl

theorem trimRight_append_blank {s b : Bytes} (hb : Blank b) : trimRight (s ++ b) = trimRight s := by
  unfold trimRight List.rdropWhile
  rw [List.reverse_append, List.dropWhile_append_of_pos]
  intro c hc
  exact hb c (List.mem_reverse.1 hc)

theorem trimRight_append {a s : Bytes} (hs : ¬ Blank s) : trimRight (a ++ s) = a ++ trimRight s := by
  unfold trimRight List.rdropWhile
  rw [List.reverse_append, List.dropWhile_append, if_neg, List.reverse_append, List.reverse_reverse]
  intro h
  refine hs fun c hc => ?_
  exact List.dropWhile_eq_nil_iff.1 (List.isEmpty_iff.1 h) c (List.mem_reverse.2 hc)

theorem exists_trimRight (s : Bytes) : ∃ b, s = trimRight s ++ b ∧ Blank b := by
  refine ⟨s.rtakeWhile isSpace, List.rdropWhile_append_rtakeWhile.symm, ?_⟩
  intro c hc
  exact List.mem_rtakeWhile_imp hc

theorem trimRight_last {s a : Bytes} {c : Byte} (h : trimRight s = a ++ [c]) :
    isSpace c = false := by
  have hlast := List.rdropWhile_last_not isSpace s (by
    intro hnil
    rw [trimRight, hnil] at h
    cases a <;> cases h)
  have hc : (s.rdropWhile isSpace).getLast? = some c := by
    rw [← trimRight, h, List.getLast?_concat]
  rw [List.getLast_of_getLast?_eq_some hc] at hlast
  exact Bool.eq_false_iff.2 hlast

@[simp] theorem trim_eq_nil {s : Bytes} : trim s = [] ↔ Blank s := by
  rw [trim_eq, trimRight, List.rdropWhile_eq_nil_iff]
  constructor
  · intro h
    have hall : s.takeWhile isSpace ++ s.dropWhile isSpace = s := List.takeWhile_append_dropWhile
    rw [← hall, blank_append]
    exact ⟨fun c hc => List.mem_takeWhile_imp hc, h⟩
  · intro h c hc
    exact h c ((List.dropWhile_suffix _).subset hc)

theorem trim_blank_append {a s : Bytes} (ha : Blank a) : trim (a ++ s) = trim s := by
  rw [trim_eq, trim_eq, List.dropWhile_append_of_pos ha]

theorem trim_append_blank {s b : Bytes} (hb : Blank b) : trim (s ++ b) = trim s := by
  by_cases hs : Blank s
  · rw [trim_eq_nil.2 hs, trim_eq_nil.2 (blank_append.2 ⟨hs, hb⟩)]
  · have hdrop : (s ++ b).dropWhile isSpace = s.dropWhile isSpace ++ b := by
      rw [List.dropWhile_append, if_neg]
      intro h
      exact hs (List.dropWhile_eq_nil_iff.1 (List.isEmpty_iff.1 h))
    rw [trim_eq, hdrop, trimRight_append_blank hb, trim_eq]

/-- A text is what `trim` keeps, between white space. -/
theorem exists_trim (s : Bytes) : ∃ a b, s = a ++ trim s ++ b ∧ Blank a ∧ Blank b := by
  obtain ⟨b, hb, hblank⟩ := exists_trimRight (s.dropWhile isSpace)
  refine ⟨s.takeWhile isSpace, b, ?_, fun c hc => List.mem_takeWhile_imp hc, hblank⟩
  rw [List.append_assoc, trim_eq, ← hb, List.takeWhile_append_dropWhile]

theorem trimRight_cons {c : Byte} (hc : isSpace c = false) (s : Bytes) :
    trimRight (c :: s) = c :: trimRight s := by
  by_cases hs : Blank s
  · have hnil : trimRight s = [] := by
      have h := @trimRight_append_blank [] s hs
      rwa [List.nil_append] at h
    have h := @trimRight_append_blank [c] s hs
    rw [List.singleton_append] at h
    rw [h, hnil, trimRight, List.rdropWhile_singleton, if_neg (by simp [hc])]
  · exact @trimRight_append [c] s hs

theorem trim_trimRight (s : Bytes) : trim (trimRight s) = trim s := by
  obtain ⟨b, hb, hblank⟩ := exists_trimRight s
  conv_rhs => rw [hb]
  exact (trim_append_blank hblank).symm

/-- Around an octet that is not white space the two ends are trimmed apart. -/
theorem trim_append_cons {c : Byte} (hc : isSpace c = false) (a s : Bytes) :
    trim (a ++ c :: s) = a.dropWhile isSpace ++ c :: trimRight s := by
  have hdrop : (a ++ c :: s).dropWhile isSpace = a.dropWhile isSpace ++ c :: s := by
    rw [List.dropWhile_append]
    split
    · rename_i hnil
      rw [List.isEmpty_iff.1 hnil, List.dropWhile_cons_of_neg (by simp [hc]), List.nil_append]
    · rfl
  rw [trim_eq, hdrop, trimRight_append, trimRight_cons hc]
  rw [blank_cons, hc]
  exact fun h => Bool.false_ne_true h.1

theorem trim_ends {a b : Byte} (ha : isSpace a = false) (hb : isSpace b = false) (s : Bytes) :
    trim (a :: (s ++ [b])) = a :: (s ++ [b]) := by
  have h := trim_append_cons hb (a :: s) []
  rw [List.dropWhile_cons_of_neg (by simp [ha])] at h
  exact h

theorem length_trim_le (s : Bytes) : (trim s).length ≤ s.length := by
  obtain ⟨a, b, hs, -⟩ := exists_trim s
  have hlength := congrArg List.length hs
  simp only [List.length_append] at hlength
  omega

theorem mem_trim {s : Bytes} {c : Byte} (hc : isSpace c = false) (h : c ∈ s) : c ∈ trim s := by
  obtain ⟨a, b, hs, ha, hb⟩ := exists_trim s
  have hblank {x : Bytes} (hx : Blank x) : c ∉ x := fun hmem => by
    have hspace := hx c hmem
    rw [hc] at hspace
    cases hspace
  rw [hs, List.mem_append, List.mem_append] at h
  rcases h with (h | h) | h
  · exact absurd h (hblank ha)
  · exact h
  · exact absurd h (hblank hb)

theorem trim_of_noSpace {s : Bytes} (h : ∀ c ∈ s, isSpace c = false) : trim s = s := by
  obtain ⟨a, b, hs, ha, hb⟩ := exists_trim s
  have hnil {x : Bytes} (hx : Blank x) (hmem : ∀ c ∈ x, c ∈ s) : x = [] := by
    refine List.eq_nil_iff_forall_not_mem.2 fun c hc => ?_
    have hspace := hx c hc
    rw [h c (hmem c hc)] at hspace
    cases hspace
  rw [hnil ha fun c hc => by rw [hs]; simp [hc], hnil hb fun c hc => by rw [hs]; simp [hc],
    List.nil_append, List.append_nil] at hs
  exact hs.symm

theorem mem_of_mem_trim {s : Bytes} {c : Byte} (h : c ∈ trim s) : c ∈ s := by
  obtain ⟨a, b, hs, _⟩ := exists_trim s
  rw [hs]
  exact List.mem_append_left b (List.mem_append_right a h)

@[simp] theorem trim_trim (s : Bytes) : trim (trim s) = trim s := by
  obtain ⟨a, b, hs, ha, hb⟩ := exists_trim s
  conv_rhs => rw [hs]
  rw [trim_append_blank hb, trim_blank_append ha]

theorem trim_head {s : Bytes} {c : Byte} (h : (trim s).head? = some c) : isSpace c = false := by
  by_contra hc
  obtain ⟨t, ht⟩ : ∃ t, trim s = c :: t := by
    cases hs : trim s with
    | nil => rw [hs] at h; cases h
    | cons d t => rw [hs] at h; cases h; exact ⟨t, rfl⟩
  have hblank : Blank [c] := by
    intro d hd
    rw [List.mem_singleton.1 hd]
    exact Bool.not_eq_false _ ▸ hc
  have hlen := congrArg List.length (trim_trim s)
  rw [ht, ← List.singleton_append, trim_blank_append hblank, List.length_append] at hlen
  obtain ⟨a, b, hs, _⟩ := exists_trim t
  have hle := congrArg List.length hs
  simp only [List.length_append, List.length_singleton] at hlen hle
  omega

/-- What stands between two texts is kept. -/
theorem mem_trim_middle {a b : Bytes} {c : Byte} (ha : ¬ Blank a) (hb : ¬ Blank b) :
    c ∈ trim (a ++ c :: b) := by
  obtain ⟨x, y, hs, hx, hy⟩ := exists_trim (a ++ c :: b)
  generalize trim (a ++ c :: b) = t at hs
  rw [List.append_assoc] at hs
  rcases List.append_eq_append_iff.1 hs with ⟨u, rfl, _⟩ | ⟨u, rfl, hu⟩
  · exact absurd (blank_append.1 hx).1 ha
  · rcases List.append_eq_append_iff.1 hu with ⟨v, _, rfl⟩ | ⟨v, rfl, hv⟩
    · exact absurd (blank_cons.1 (blank_append.1 hy).2).2 hb
    · cases v with
      | nil =>
        rw [List.nil_append] at hv
        rw [← hv] at hy
        exact absurd (blank_cons.1 hy).2 hb
      | cons d v =>
        cases hv
        exact List.mem_append_right u List.mem_cons_self

/-! ## Lines -/

/-- A text is its last line, or a line and the rest behind its line feed. -/
theorem line_induction {motive : Bytes → Prop} (last : ∀ l, (10 : Byte) ∉ l → motive l)
    (line : ∀ l s, (10 : Byte) ∉ l → motive s → motive (l ++ 10 :: s)) (s : Bytes) : motive s := by
  by_cases h : (10 : Byte) ∈ s
  · obtain ⟨l, rest, rfl, hl⟩ := List.eq_append_cons_of_mem h
    exact line l rest hl (line_induction last line rest)
  · exact last s h
termination_by s.length

end CxxStd
