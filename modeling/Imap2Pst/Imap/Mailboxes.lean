import Imap2Pst.Imap.Metas

/-!
# Imap.Mailboxes

A mailbox as a server lists it, and that `parseListLine` reads the line back.

* `SentMailbox`              — what a LIST line tells, and how its name is sent.
* `readAstring_escaped`      — the cursor over a quoted string with escapes.
* `mem_attributes_iff`       — when the search for `\Noselect` succeeds.
* `parseListLine_text`       — what is made of a line.
-/

namespace Imap2Pst
namespace Imap

open CxxStd

/-! ## LIST lines -/

/-- A backslash and an atom. -/
structure ListAttribute where
  name : Bytes
  atom : ∀ c ∈ name, isKeywordChar c = true

def ListAttribute.text (a : ListAttribute) : Bytes := 92 :: a.name

def noselect : Bytes := str "noselect"

/-- `\Noselect`, in any case -/
def ListAttribute.IsNoselect (a : ListAttribute) : Prop := lower a.name = noselect

instance (a : ListAttribute) : Decidable a.IsNoselect := inferInstanceAs (Decidable (_ = _))

def escaped (s : Bytes) : Bytes := s.flatMap fun c => if c = 34 ∨ c = 92 then [92, c] else [c]

def quoted (s : Bytes) : Bytes := 34 :: (escaped s ++ [34])

structure SentMailbox where
  attributes : List ListAttribute
  delimiter : Option Byte
  name : Bytes
  /-- The name is sent as a literal, else as a quoted string. -/
  isLiteral : Bool
  name_ne_nil : name ≠ []
  delimiter_plain : ∀ c ∈ delimiter, c ≠ 13 ∧ c ≠ 10
  name_plain : isLiteral = false → ∀ c ∈ name, c ≠ 13 ∧ c ≠ 10

namespace SentMailbox

def delimiterText (m : SentMailbox) : Bytes :=
  match m.delimiter with
  | none => str "NIL"
  | some c => quoted [c]

/-- The line up to the name. -/
def intro (m : SentMailbox) : Bytes :=
  str "* LIST " ++ (FetchItem.flagList (m.attributes.map ListAttribute.text) ++
    32 :: (m.delimiterText ++ [32]))

def nameText (m : SentMailbox) : Bytes := if m.isLiteral then literal m.name else quoted m.name

def text (m : SentMailbox) : Bytes := m.intro ++ m.nameText

def info (m : SentMailbox) : FolderInfo where
  rawName := m.name
  fullName := decodeModifiedUtf7 m.name
  delimiter := m.delimiter.getD 0
  selectable := ¬ ∃ a ∈ m.attributes, a.IsNoselect

end SentMailbox

def listResponse (ms : List SentMailbox) : Bytes := ms.flatMap fun m => m.text ++ [13, 10]

/-! ## Quoted strings -/

theorem escaped_cons (c : Byte) (s : Bytes) :
    escaped (c :: s) = (if c = 34 ∨ c = 92 then [92, c] else [c]) ++ escaped s := List.flatMap_cons

theorem readQuoted_escaped (s rest : Bytes) :
    readQuoted (escaped s ++ 34 :: rest) = (s, (escaped s).length + 1) := by
  induction s with
  | nil => exact readQuoted_close rest
  | cons c s ih =>
    rw [escaped_cons]
    split
    · rw [List.append_assoc, List.cons_append, List.singleton_append, readQuoted,
        if_neg (by decide), if_pos rfl, ih]
      rfl
    · rename_i hplain
      obtain ⟨d, t, hnext⟩ : ∃ d t, escaped s ++ 34 :: rest = d :: t := by
        cases escaped s with
        | nil => exact ⟨34, rest, rfl⟩
        | cons d t => exact ⟨d, t ++ 34 :: rest, rfl⟩
      rw [List.append_assoc, List.singleton_append, hnext, readQuoted,
        if_neg fun h => hplain (.inl h), if_neg fun h => hplain (.inr h), ← hnext, ih]
      rfl

/-- A quoted string under the cursor. -/
theorem readAstring_escaped {s sp value rest : Bytes} {i : Nat}
    (h : s.drop i = sp ++ (quoted value ++ rest)) (hsp : blank sp) :
    readAstring s i = (some value, i + sp.length + (quoted value).length) ∧
      s.drop (i + sp.length + (quoted value).length) = rest := by
  have hskip : skipSpace s i = i + sp.length :=
    skipSpace_of_append h hsp (by simp [quoted]; decide)
  have hdrop : s.drop (i + sp.length) = 34 :: (escaped value ++ 34 :: rest) := by
    rw [drop_of_append h, quoted]
    simp
  refine ⟨?_, drop_of_append (by rw [drop_of_append h])⟩
  simp only [readAstring, hskip, hdrop, if_true, readQuoted_escaped]
  simp [quoted, Nat.add_assoc, Nat.add_comm]

/-! ## The search for an attribute -/

theorem findPat_eq_none_iff {pat s : Bytes} : findPat pat s = none ↔ ¬ pat <:+: s := by
  induction s with
  | nil =>
    rw [findPat, List.infix_nil]
    split <;> simp [*]
  | cons c s ih =>
    rw [findPat, List.infix_cons_iff, not_or, ← ih]
    split
    · rename_i hpre
      simp [hpre]
    · rename_i hpre
      simp [hpre]

/-- An occurrence starts at its first octet. -/
theorem cons_infix_append {c : Byte} {p u v : Bytes} (h : c ∉ u) :
    c :: p <:+: u ++ v ↔ c :: p <:+: v := by
  induction u with
  | nil => rfl
  | cons d u ih =>
    rw [List.mem_cons, not_or] at h
    rw [List.cons_append, List.infix_cons_iff, ih h.2]
    refine or_iff_right fun hpre => h.1 ?_
    obtain ⟨t, ht⟩ := hpre
    rw [List.cons_append, List.cons.injEq] at ht
    exact ht.1

theorem prefix_append_cons {p x rest : Bytes} {d : Byte} (h : d ∉ p) :
    p <+: x ++ d :: rest ↔ p <+: x := by
  constructor
  · intro hpre
    by_cases hlen : p.length ≤ x.length
    · exact List.prefix_of_prefix_length_le hpre (List.prefix_append _ _) hlen
    · exfalso
      have hxd : x ++ [d] <+: p := by
        refine List.prefix_of_prefix_length_le ⟨rest, by simp⟩ hpre ?_
        rw [List.length_append, List.length_singleton]
        omega
      exact h (hxd.subset (List.mem_append_right _ (List.mem_singleton_self d)))
  · exact fun hpre => hpre.trans (List.prefix_append _ _)

theorem backslash_not_mem {a : ListAttribute} : (92 : Byte) ∉ lower a.name := by
  intro hmem
  obtain ⟨c, hc, hlower⟩ := List.mem_map.1 hmem
  have hall : ∀ c : Byte, isKeywordChar c = true → toLower c ≠ 92 :=
    forall_byte (by decide +kernel)
  exact hall c (a.atom c hc) hlower

theorem noselect_plain : (92 : Byte) ∉ noselect ∧ (32 : Byte) ∉ noselect ∧ (41 : Byte) ∉ noselect := by
  decide

/-- An attribute under way, and what follows it. -/
theorem noselect_infix_cons {a : ListAttribute} {d : Byte} {rest : Bytes} (hd : d ≠ 92)
    (hsep : d ∉ noselect) :
    92 :: noselect <:+: lower a.text ++ d :: rest ↔
      noselect <+: lower a.name ∨ 92 :: noselect <:+: rest := by
  have htext : lower a.text ++ d :: rest = 92 :: (lower a.name ++ ([d] ++ rest)) := by
    have hlower : lower a.text = 92 :: lower a.name := rfl
    rw [hlower, List.cons_append, List.singleton_append]
  have hrest : (92 : Byte) ∉ lower a.name ++ [d] := by
    rw [List.mem_append, List.mem_singleton, not_or]
    exact ⟨backslash_not_mem, hd.symm⟩
  rw [htext, List.infix_cons_iff, ← List.append_assoc, cons_infix_append hrest,
    List.cons_prefix_cons, List.append_assoc, List.singleton_append, prefix_append_cons hsep]
  simp

theorem mem_attributes_iff {attributes : List ListAttribute} :
    92 :: noselect <:+: lower (FetchItem.flagList (attributes.map ListAttribute.text)) ↔
      ∃ a ∈ attributes, noselect <+: lower a.name := by
  obtain ⟨-, hspace, hclose⟩ := noselect_plain
  have hopen : (92 : Byte) ∉ [toLower 40] := by decide
  have hlist : lower (FetchItem.flagList (attributes.map ListAttribute.text)) =
      [toLower 40] ++ (lower (FetchItem.spaced (attributes.map ListAttribute.text)) ++ [41]) := by
    rw [FetchItem.flagList, List.cons_append, lower, List.map_cons, List.map_append]
    rfl
  rw [hlist, cons_infix_append hopen]
  clear hlist
  induction attributes with
  | nil =>
    refine iff_of_false (fun h => ?_) (by simp)
    exact absurd h.length_le (by decide)
  | cons a attributes ih =>
    cases attributes with
    | nil =>
      rw [List.map_singleton, FetchItem.spaced, noselect_infix_cons (by decide) hclose]
      simp
    | cons b attributes =>
      have hline : lower (FetchItem.spaced ((a :: b :: attributes).map ListAttribute.text)) ++ [41] =
          lower a.text ++ 32 ::
            (lower (FetchItem.spaced ((b :: attributes).map ListAttribute.text)) ++ [41]) := by
        have hspaced : FetchItem.spaced ((a :: b :: attributes).map ListAttribute.text) =
            a.text ++ 32 :: FetchItem.spaced ((b :: attributes).map ListAttribute.text) := rfl
        rw [hspaced, lower_append, List.append_assoc]
        rfl
      rw [hline, noselect_infix_cons (by decide) hspace]
      refine (or_congr_right ih).trans ?_
      simp

/-! ## Lines -/

namespace SentMailbox

/-- Some attribute begins like `\Noselect`. -/
def HasNoselectPrefix (m : SentMailbox) : Prop := ∃ a ∈ m.attributes, noselect <+: lower a.name

instance (m : SentMailbox) : Decidable m.HasNoselectPrefix :=
  inferInstanceAs (Decidable (∃ a ∈ _, _))

/-- What `parseListLine` takes the flag from. -/
theorem isNone_findSub (m : SentMailbox) :
    (findSub (lower (FetchItem.flagList (m.attributes.map ListAttribute.text)))
      (str "\\noselect") 0).isNone = decide (¬ m.HasNoselectPrefix) := by
  have hpat : str "\\noselect" = 92 :: noselect := by decide
  rw [Bool.eq_iff_iff, findSub, List.drop_zero, Option.isNone_map, hpat,
    Option.isNone_iff_eq_none, findPat_eq_none_iff, mem_attributes_iff, decide_eq_true_iff]
  rfl

/-- The delimiter under the cursor. -/
theorem read_delimiter (m : SentMailbox) {s sp rest : Bytes} {i : Nat}
    (h : s.drop i = sp ++ (m.delimiterText ++ 32 :: rest)) (hsp : blank sp) :
    ∃ delim, readAstring s i = (some delim, i + sp.length + m.delimiterText.length) ∧
      s.drop (i + sp.length + m.delimiterText.length) = 32 :: rest ∧
      (if lower delim = str "nil" then 0 else delim.headD 0) = m.delimiter.getD 0 := by
  unfold delimiterText at h ⊢
  cases hd : m.delimiter with
  | none =>
    rw [hd] at h
    have hatom : ∀ a ∈ str "NIL", isAtomChar a = true := List.all_eq_true.1 (by decide)
    obtain ⟨hread, hdrop⟩ := @readAstring_atom s sp [73, 76] (32 :: rest) 78 i h hsp
      (by decide) hatom (by simp; decide)
    exact ⟨str "NIL", hread, hdrop, rfl⟩
  | some c =>
    rw [hd] at h
    dsimp only at h ⊢
    obtain ⟨hread, hdrop⟩ := readAstring_escaped h hsp
    refine ⟨[c], hread, hdrop, ?_⟩
    have hne : lower [c] ≠ str "nil" := fun heq => absurd (congrArg List.length heq) (by simp; decide)
    rw [if_neg hne]
    rfl

/-- The name under the cursor. -/
theorem read_name (m : SentMailbox) {s : Bytes} {i : Nat} (hlen : s.length < 2 ^ 63)
    (h : s.drop i = [32] ++ m.nameText) : ∃ j, readAstring s i = (some m.name, j) := by
  rw [← List.append_nil m.nameText] at h
  unfold nameText at h
  split at h
  · exact ⟨_, (readAstring_literal hlen h blank_space).1⟩
  · exact ⟨_, (readAstring_escaped h blank_space).1⟩

theorem isAtomChar_attributes (m : SentMailbox) :
    ∀ name ∈ m.attributes.map ListAttribute.text, ∀ c ∈ name, isAtomChar c = true := by
  have hall : ∀ c : Byte, isKeywordChar c = true → isAtomChar c = true :=
    forall_byte (by decide +kernel)
  intro name hname c hc
  obtain ⟨a, -, rfl⟩ := List.mem_map.1 hname
  rcases List.mem_cons.1 hc with rfl | hc
  · decide
  · exact hall c (a.atom c hc)

/-- A LIST line is read as it was sent; an attribute that only begins like `\Noselect` counts as
one. -/
theorem parseListLine_text (m : SentMailbox) (hlen : m.text.length < 2 ^ 63) :
    parseListLine m.text = some { m.info with selectable := ¬ m.HasNoselectPrefix } := by
  have hword : str "* LIST " = [42] ++ ([32] ++ (str "LIST" ++ [32])) := by decide
  have htext : m.text = [42] ++ ([32] ++ (str "LIST" ++ ([32] ++
      (FetchItem.flagList (m.attributes.map ListAttribute.text) ++
        ([32] ++ (m.delimiterText ++ 32 :: m.nameText)))))) := by
    simp [text, intro, hword]
  have hatoms := m.isAtomChar_attributes
  have hflag := m.isNone_findSub
  have hshort : ¬ (m.text.length < 2 ∨ m.text.head? ≠ some 42) := by
    rw [htext]
    simp
  rw [parseListLine, if_neg hshort]
  clear hshort
  generalize m.text = line at *
  obtain ⟨rest, hrest⟩ : ∃ rest, rest = [32] ++ (m.delimiterText ++ 32 :: m.nameText) := ⟨_, rfl⟩
  rw [← hrest] at htext
  have h1 : line.drop 1 = [32] ++ (str "LIST" ++ ([32] ++
      (FetchItem.flagList (m.attributes.map ListAttribute.text) ++ rest))) := by rw [htext]; rfl
  have hskip1 : skipSpace line 1 = 2 := skipSpace_of_append h1 blank_space (by simp; decide)
  have h2 : line.drop 2 = str "LIST" ++ ([32] ++
      (FetchItem.flagList (m.attributes.map ListAttribute.text) ++ rest)) := drop_of_append h1
  have hlist : lower (slice line 2 4) = str "list" := by
    have hslice : slice line 2 4 = str "LIST" := slice_of_append h2
    rw [hslice]
    decide
  have h6 : line.drop (2 + 4) = [32] ++
      (FetchItem.flagList (m.attributes.map ListAttribute.text) ++ rest) := drop_of_append h2
  have hskip6 : skipSpace line (2 + 4) = 7 :=
    skipSpace_of_append h6 blank_space (by simp [FetchItem.flagList]; decide)
  have h7 : line.drop 7 = FetchItem.flagList (m.attributes.map ListAttribute.text) ++ rest :=
    drop_of_append h6
  have hopen : (line.drop 7).head? = some 40 := by rw [h7]; rfl
  obtain ⟨close, hclose, hslice, hafter⟩ := read_flags h6 hatoms
  rw [hskip6] at hclose hslice
  obtain ⟨delim, hdelim, hname, hvalue⟩ := m.read_delimiter (hafter.trans hrest) blank_space
  obtain ⟨j, hj⟩ := m.read_name hlen hname
  simp only [hskip1, hlist, hskip6, hopen, hclose, hslice, hflag, hdelim, hj, hvalue, m.name_ne_nil,
    ne_eq, not_true_eq_false, if_false, info]

end SentMailbox

end Imap
end Imap2Pst
