import Imap2Pst.Imap.Client
import Imap2Pst.Imap.Wire

/-!
# Imap.Fetch

FETCH responses as servers send them: `* n FETCH (...)` with the data items in any order.

* `readAstring_atom`, `_quoted`, `_literal` — the cursor over one token.
* `bodyItems_spec`, `metaItems_spec`        — the item loops compute `bodyFold` and `metaFold`.
* `parseFetchBodies_respond`, `parseFetchResponse_respond` — so a response is read line by line.
-/

namespace Imap2Pst
namespace Imap

open CxxStd

inductive FetchItem where
  | uid (n : UInt32)
  | flags (names : List Bytes)
  | internalDate (value : Bytes)
  | size (n : UInt32)
  | body (octets : Bytes)
  deriving DecidableEq, Repr

namespace FetchItem

def key : FetchItem → Bytes
  | uid _ => str "UID"
  | flags _ => str "FLAGS"
  | internalDate _ => str "INTERNALDATE"
  | size _ => str "RFC822.SIZE"
  | body _ => str "BODY[]"

def spaced : List Bytes → Bytes
  | [] => []
  | [name] => name
  | name :: rest => name ++ 32 :: spaced rest

theorem mem_spaced {names : List Bytes} {c : Byte} (h : c ∈ spaced names) :
    c = 32 ∨ ∃ name ∈ names, c ∈ name := by
  fun_induction spaced names with
  | case1 => cases h
  | case2 name => exact .inr ⟨name, by simp, h⟩
  | case3 name rest _ ih =>
    rcases List.mem_append.1 h with h | h
    · exact .inr ⟨name, by simp, h⟩
    · rcases List.mem_cons.1 h with h | h
      · exact .inl h
      · rcases ih h with h | ⟨name', hname, h⟩
        · exact .inl h
        · exact .inr ⟨name', List.mem_cons_of_mem _ hname, h⟩

def flagList (names : List Bytes) : Bytes := 40 :: spaced names ++ [41]

def value : FetchItem → Bytes
  | uid n => decimal n.toNat
  | flags names => flagList names
  | internalDate value => 34 :: value ++ [34]
  | size n => decimal n.toNat
  | body octets => literal octets

def text (item : FetchItem) : Bytes := item.key ++ 32 :: item.value

/-- Flags are atoms, and a date needs no escapes. -/
def WellFormed : FetchItem → Prop
  | flags names => ∀ name ∈ names, ∀ c ∈ name, isAtomChar c
  | internalDate value => ∀ c ∈ value, c ≠ 34 ∧ c ≠ 92 ∧ c ≠ 10
  | _ => True

end FetchItem

/-- What stands between an item and those after it. -/
def sep (rest : List FetchItem) : Bytes := if rest = [] then [] else [32]

def itemsText : List FetchItem → Bytes
  | [] => []
  | item :: rest => item.text ++ (sep rest ++ itemsText rest)

structure FetchLine where
  seq : Nat
  items : List FetchItem
  deriving DecidableEq, Repr

/-- The items of a line, with `text` already in the current run. -/
def pack (text : Bytes) : List FetchItem → Line
  | [] => { last := text ++ [41] }
  | .body octets :: rest =>
    let l := pack (sep rest) rest
    { l with parts := (text ++ str "BODY[] ", octets) :: l.parts }
  | item :: rest => pack (text ++ item.text ++ sep rest) rest

def FetchLine.intro (l : FetchLine) : Bytes := 42 :: 32 :: decimal l.seq ++ str " FETCH ("

def FetchLine.line (l : FetchLine) : Line := pack l.intro l.items

theorem pack_text (items : List FetchItem) (text : Bytes) :
    (pack text items).text = text ++ (itemsText items ++ [41]) := by
  induction items generalizing text with
  | nil => simp [pack, Line.text, textOf, itemsText]
  | cons item rest ih =>
    cases item with
    | body octets =>
      have hrest := ih (sep rest)
      simp only [Line.text] at hrest
      simp only [pack, Line.text, textOf, hrest, itemsText, FetchItem.text, FetchItem.key,
        FetchItem.value]
      have hkey : str "BODY[] " = str "BODY[]" ++ [32] := by decide
      simp [hkey]
    | _ => simp [pack, ih, itemsText]

/-! ## Tokens -/

def blank (s : Bytes) : Prop := ∀ c ∈ s, isBlank c = true

theorem skipSpace_of_append {s sp rest : Bytes} {i : Nat} (h : s.drop i = sp ++ rest)
    (hsp : blank sp) (hrest : ∀ c ∈ rest.head?, isBlank c = false) :
    skipSpace s i = i + sp.length := by
  have htake : (s.drop i).takeWhile isBlank = sp := by
    rw [h, List.takeWhile_append_of_pos hsp]
    cases rest with
    | nil => simp
    | cons c rest => rw [List.takeWhile_cons_of_neg (by simp [hrest c rfl])]; simp
  rw [skipSpace, htake]

theorem not_isBlank_of_isAtomChar {c : Byte} (h : isAtomChar c = true) (htab : c ≠ 9) :
    isBlank c = false := by
  simp only [isAtomChar, isBlank, Bool.not_eq_true', Bool.or_eq_false_iff,
    decide_eq_false_iff_not] at *
  exact ⟨h.1.1.1.1, htab⟩

theorem readAstring_atom {s sp atom rest : Bytes} {c : Byte} {i : Nat}
    (h : s.drop i = sp ++ (c :: atom ++ rest)) (hsp : blank sp)
    (hc : c ≠ 34 ∧ c ≠ 123 ∧ c ≠ 9) (hatom : ∀ a ∈ c :: atom, isAtomChar a = true)
    (hrest : ∀ a ∈ rest.head?, isAtomChar a = false) :
    readAstring s i = (some (c :: atom), i + sp.length + (c :: atom).length) ∧
      s.drop (i + sp.length + (c :: atom).length) = rest := by
  have hskip : skipSpace s i = i + sp.length :=
    skipSpace_of_append h hsp (by
      simpa using not_isBlank_of_isAtomChar (hatom c List.mem_cons_self) hc.2.2)
  have hdrop : s.drop (i + sp.length) = c :: (atom ++ rest) := by
    rw [drop_of_append h]; rfl
  have htake : (c :: (atom ++ rest)).takeWhile isAtomChar = c :: atom := by
    rw [← List.cons_append, List.takeWhile_append_of_pos hatom]
    cases rest with
    | nil => simp
    | cons a rest => rw [List.takeWhile_cons_of_neg (by simp [hrest a rfl])]; simp
  refine ⟨?_, drop_of_append (a := c :: atom) (by rw [hdrop]; rfl)⟩
  simp only [readAstring, hskip, hdrop, hc.1, hc.2.1, if_false, htake]
  simp

theorem readQuoted_close (rest : Bytes) : readQuoted (34 :: rest) = ([], 1) := by
  cases rest <;> simp [readQuoted]

theorem readQuoted_append {value rest : Bytes} (h : ∀ c ∈ value, c ≠ 34 ∧ c ≠ 92) :
    readQuoted (value ++ 34 :: rest) = (value, value.length + 1) := by
  induction value with
  | nil => exact readQuoted_close rest
  | cons c value ih =>
    have hc := h c List.mem_cons_self
    have hvalue := ih fun d hd => h d (List.mem_cons_of_mem _ hd)
    cases value with
    | nil => simp [readQuoted, hc.1, hc.2, readQuoted_close]
    | cons d value =>
      rw [List.cons_append, List.cons_append, readQuoted, if_neg hc.1, if_neg hc.2,
        ← List.cons_append, hvalue]
      rfl

theorem readAstring_quoted {s sp value rest : Bytes} {i : Nat}
    (h : s.drop i = sp ++ (34 :: value ++ [34] ++ rest)) (hsp : blank sp)
    (hvalue : ∀ c ∈ value, c ≠ 34 ∧ c ≠ 92) :
    readAstring s i = (some value, i + sp.length + (34 :: value ++ [34]).length) ∧
      s.drop (i + sp.length + (34 :: value ++ [34]).length) = rest := by
  have hskip : skipSpace s i = i + sp.length := skipSpace_of_append h hsp (by simp; decide)
  have hdrop : s.drop (i + sp.length) = 34 :: (value ++ 34 :: rest) := by
    rw [drop_of_append h]; simp
  refine ⟨?_, drop_of_append (by rw [hdrop]; simp)⟩
  simp only [readAstring, hskip, hdrop, if_true, readQuoted_append hvalue]
  simp [Nat.add_assoc, Nat.add_comm]

theorem cstr_decimal (n : Nat) (rest : Bytes) : cstr (decimal n ++ rest) = decimal n ++ cstr rest :=
  List.takeWhile_append_of_pos fun c hc => by
    have hdigit := isDigit_of_mem_decimal hc
    have hzero : c ≠ 0 := by rintro rfl; exact absurd hdigit (by decide)
    simpa using hzero

theorem readAstring_literal {s sp octets rest : Bytes} {i : Nat}
    (hlen : s.length < 2 ^ 63) (h : s.drop i = sp ++ (literal octets ++ rest)) (hsp : blank sp) :
    readAstring s i = (some octets, i + sp.length + (literal octets).length) ∧
      s.drop (i + sp.length + (literal octets).length) = rest := by
  have hskip : skipSpace s i = i + sp.length := skipSpace_of_append h hsp (by simp [literal]; decide)
  have hdrop : s.drop (i + sp.length) = literal octets ++ rest := drop_of_append h
  have hdrop1 : s.drop (i + sp.length) =
      (123 :: decimal octets.length) ++ 125 :: (13 :: 10 :: (octets ++ rest)) := by
    rw [hdrop]; simp [literal]
  have hclose : find s 125 (i + sp.length) =
      some (i + sp.length + (decimal octets.length).length + 1) := by
    rw [find_of_append hdrop1 ?_]
    · simp [Nat.add_assoc]
    · have hdigits : (125 : Byte) ∉ decimal octets.length := fun h =>
        absurd (isDigit_of_mem_decimal h) (by decide)
      simp [hdigits]
  have hdrop2 : s.drop (i + sp.length + (decimal octets.length).length + 1 + 1) =
      13 :: 10 :: (octets ++ rest) := by
    have := drop_of_append (a := 123 :: decimal octets.length ++ [125]) (by rw [hdrop1]; simp)
      (i := i + sp.length) (s := s) (b := 13 :: 10 :: (octets ++ rest))
    simpa [Nat.add_assoc] using this
  have hdrop3 : s.drop (i + sp.length + (decimal octets.length).length + 1 + 1 + 1) =
      10 :: (octets ++ rest) := drop_of_append (a := [13]) hdrop2
  have hdrop4 : s.drop (i + sp.length + (decimal octets.length).length + 1 + 1 + 1 + 1) =
      octets ++ rest := drop_of_append (a := [10]) hdrop3
  have hbound : i + sp.length + (literal octets).length ≤ s.length :=
    add_length_le_of_drop hdrop (by simp [literal])
  have hliteral : (literal octets).length = (decimal octets.length).length + 4 + octets.length := by
    simp [literal]
    omega
  have hsmall : octets.length < wordSize := by simp only [wordSize]; omega
  have hn : strtoul (cstr (decimal octets.length ++ 125 :: 13 :: 10 :: (octets ++ rest))) =
      octets.length := by
    rw [cstr_decimal]
    exact strtoul_decimal hsmall (by simp [cstr]; decide)
  have hend : i + sp.length + (decimal octets.length).length + 1 + 1 + 1 + 1 + octets.length =
      i + sp.length + (literal octets).length := by omega
  have hadd : addSize (i + sp.length + (decimal octets.length).length + 1 + 1 + 1 + 1)
      octets.length = i + sp.length + (literal octets).length := by
    rw [addSize_of_lt (by simp only [wordSize]; omega), hend]
  refine ⟨?_, drop_of_append hdrop⟩
  simp only [readAstring, hskip, hdrop1, List.cons_append, hclose]
  simp only [show ¬ (123 : Byte) = 34 by decide, if_false, if_true, hdrop2, List.head?_cons, hdrop3,
    hn, hadd]
  rw [if_neg (by omega), slice_of_append hdrop4]

/-- No token starts at a parenthesis. -/
theorem readAstring_paren {s sp rest : Bytes} {i : Nat} (h : s.drop i = sp ++ 40 :: rest)
    (hsp : blank sp) : readAstring s i = (none, i + sp.length) := by
  have hskip : skipSpace s i = i + sp.length := skipSpace_of_append h hsp (by simp; decide)
  have hdrop : s.drop (i + sp.length) = 40 :: rest := drop_of_append h
  simp only [readAstring, hskip, hdrop]
  rw [if_neg (by decide), if_neg (by decide), List.takeWhile_cons_of_neg (by decide), if_pos rfl]

/-! ## Items -/

/-- What the item loop of `parseFetchBodies` makes of the items: it gives up at a flag list. -/
def bodyFold : Option UInt32 × Option Bytes → List FetchItem → Option UInt32 × Option Bytes
  | acc, [] => acc
  | (_, octets), .uid n :: rest => bodyFold (some n, octets) rest
  | (n, _), .body octets :: rest => bodyFold (n, some octets) rest
  | acc, .flags _ :: _ => acc
  | acc, _ :: rest => bodyFold acc rest

/-- What the item loop of `parseFetchResponse` makes of items without a body. -/
def metaFold : Bool × MessageMeta → List FetchItem → Bool × MessageMeta
  | acc, [] => acc
  | (_, info), .uid n :: rest => metaFold (true, { info with uid := n }) rest
  | (seen, info), .size n :: rest => metaFold (seen, { info with size := n }) rest
  | (seen, info), .flags names :: rest =>
    let (flags, keywords) := parseFlags (FetchItem.flagList names)
    metaFold (seen, { info with flags, keywords := info.keywords ++ keywords }) rest
  | (seen, info), .internalDate value :: rest =>
    metaFold (seen, { info with internalDate := parseInternalDate value }) rest
  | acc, .body _ :: rest => metaFold acc rest

theorem FetchItem.key_atom (item : FetchItem) :
    ∃ c atom, item.key = c :: atom ∧ (c ≠ 34 ∧ c ≠ 123 ∧ c ≠ 9) ∧ (c ≠ 40 ∧ c ≠ 41) ∧
      ∀ a ∈ c :: atom, isAtomChar a = true := by
  cases item with
  | uid => exact ⟨85, [73, 68], rfl, by decide, by decide, List.all_eq_true.1 (by decide)⟩
  | flags =>
    exact ⟨70, [76, 65, 71, 83], rfl, by decide, by decide, List.all_eq_true.1 (by decide)⟩
  | internalDate =>
    exact ⟨73, [78, 84, 69, 82, 78, 65, 76, 68, 65, 84, 69], rfl, by decide, by decide,
      List.all_eq_true.1 (by decide)⟩
  | size =>
    exact ⟨82, [70, 67, 56, 50, 50, 46, 83, 73, 90, 69], rfl, by decide, by decide,
      List.all_eq_true.1 (by decide)⟩
  | body =>
    exact ⟨66, [79, 68, 89, 91, 93], rfl, by decide, by decide,
      List.all_eq_true.1 (by decide)⟩

/-- The end of an item's text: a space or the closing parenthesis. -/
theorem rest_head (rest : List FetchItem) :
    ∀ a ∈ (sep rest ++ (itemsText rest ++ [41])).head?, isAtomChar a = false ∧ isDigit a = false := by
  intro a ha
  cases rest with
  | nil =>
    obtain rfl : (41 : Byte) = a := by simpa [sep, itemsText] using ha
    decide
  | cons item rest =>
    obtain rfl : (32 : Byte) = a := by simpa [sep] using ha
    decide

theorem blank_sep (rest : List FetchItem) : blank (sep rest) := by
  intro c hc
  cases rest with
  | nil => simp [sep] at hc
  | cons item rest =>
    obtain rfl : c = 32 := by simpa [sep] using hc
    decide

theorem blank_space : blank [32] := by
  intro c hc
  obtain rfl : c = 32 := by simpa using hc
  decide

/-- The key of an item under the cursor, and what stands behind it. -/
theorem read_key {line sp : Bytes} {i : Nat} (item : FetchItem) (rest : Bytes)
    (h : line.drop i = sp ++ (item.text ++ rest)) (hsp : blank sp) :
    skipSpace line i = i + sp.length ∧
    (∃ c t, line.drop (i + sp.length) = c :: t ∧ c ≠ 40 ∧ c ≠ 41) ∧
    ∃ j, readAstring line (i + sp.length) = (some item.key, j) ∧
      line.drop j = [32] ++ (item.value ++ rest) := by
  obtain ⟨c, atom, hkey, hc, hparen, hatom⟩ := item.key_atom
  have htext : item.text ++ rest = c :: atom ++ (32 :: (item.value ++ rest)) := by
    simp [FetchItem.text, hkey]
  rw [htext] at h
  have hdrop := drop_of_append h
  have hatom' : line.drop (i + sp.length) = [] ++ (c :: atom ++ (32 :: (item.value ++ rest))) := hdrop
  obtain ⟨hread, hrest⟩ := readAstring_atom hatom' (by simp [blank]) hc hatom
    (by simp; decide)
  rw [← hkey] at hread hrest
  refine ⟨skipSpace_of_append h hsp ?_, ⟨c, _, hdrop, hparen⟩, _, hread, hrest⟩
  simpa using not_isBlank_of_isAtomChar (hatom c List.mem_cons_self) hc.2.2

/-- A number under the cursor. -/
theorem read_number {line rest : Bytes} {j n : Nat} (h : line.drop j = [32] ++ (decimal n ++ rest))
    (hn : n < wordSize) (hrest : ∀ a ∈ rest.head?, isAtomChar a = false ∧ isDigit a = false) :
    ∃ k, readAstring line j = (some (decimal n), k) ∧ line.drop k = rest ∧
      strtoul (cstr (decimal n)) = n := by
  obtain ⟨c, ds, hds⟩ := List.exists_cons_of_ne_nil (decimal_ne_nil n)
  have hdigit : ∀ a ∈ c :: ds, isDigit a = true := fun a ha =>
    isDigit_of_mem_decimal (n := n) (by rw [hds]; exact ha)
  have hatom : ∀ a : Byte, isDigit a = true → isAtomChar a = true := by
    intro a ha
    simp only [isAtomChar, Bool.not_eq_true', Bool.or_eq_false_iff, decide_eq_false_iff_not]
    refine ⟨⟨⟨⟨?_, ?_⟩, ?_⟩, ?_⟩, ?_⟩ <;> rintro rfl <;> exact absurd ha (by decide)
  have hc : c ≠ 34 ∧ c ≠ 123 ∧ c ≠ 9 := by
    have := hdigit c List.mem_cons_self
    refine ⟨?_, ?_, ?_⟩ <;> rintro rfl <;> exact absurd this (by decide)
  rw [hds] at h
  obtain ⟨hread, hdrop⟩ := readAstring_atom h blank_space hc (fun a ha => hatom a (hdigit a ha))
    fun a ha => (hrest a ha).1
  refine ⟨_, by rw [hds]; exact hread, hdrop, ?_⟩
  have hcstr : cstr (decimal n) = decimal n := by simpa [cstr] using cstr_decimal n []
  rw [hcstr]
  exact strtoul_decimal_nil hn

theorem toUInt32_toNat (n : UInt32) : n.toNat.toUInt32 = n := by simp

theorem toNat_lt_wordSize (n : UInt32) : n.toNat < wordSize := by
  have := n.toNat_lt
  simp only [wordSize]
  omega

/-- The closing parenthesis ends the item loop of `parseFetchBodies`. -/
theorem bodyItems_close {line sp : Bytes} {i fuel : Nat} {n : Option UInt32} {octets : Option Bytes}
    (h : line.drop i = sp ++ [41]) (hsp : blank sp) :
    bodyItems line (fuel + 2) i n octets = .ok (n, octets) := by
  have hskip : skipSpace line i = i + sp.length := skipSpace_of_append h hsp (by simp; decide)
  have hdrop : line.drop (i + sp.length) = [41] := drop_of_append h
  have hdrop' : line.drop (i + sp.length + 1) = [] := drop_of_append (a := [41]) hdrop
  have hskip' : skipSpace line (i + sp.length + 1) = i + sp.length + 1 := by
    simp [skipSpace, hdrop']
  simp only [bodyItems, hskip, hdrop, hskip', hdrop']
  simp

theorem bodyItems_spec {line : Bytes} (hlen : line.length < 2 ^ 63) :
    ∀ (items : List FetchItem) (fuel i : Nat) (sp : Bytes) (n : Option UInt32)
      (octets : Option Bytes),
      (∀ item ∈ items, item.WellFormed) → items.length + 2 ≤ fuel → blank sp →
      line.drop i = sp ++ (itemsText items ++ [41]) →
      bodyItems line fuel i n octets = .ok (bodyFold (n, octets) items) := by
  intro items
  induction items with
  | nil =>
    intro fuel i sp n octets _ hfuel hsp hdrop
    obtain ⟨fuel, rfl⟩ := Nat.exists_eq_add_of_le' hfuel
    exact bodyItems_close hdrop hsp
  | cons item rest ih =>
    intro fuel i sp n octets hwf hfuel hsp hdrop
    obtain ⟨fuel, rfl⟩ : ∃ k, fuel = k + 1 := ⟨fuel - 1, by simp at hfuel; omega⟩
    have hwf' : ∀ item ∈ rest, item.WellFormed := fun x hx => hwf x (List.mem_cons_of_mem _ hx)
    have hfuel' : rest.length + 2 ≤ fuel := by simp at hfuel; omega
    have hrest := rest_head rest
    obtain ⟨hskip, ⟨c, t, hfirst, hparen⟩, j, hread, hvalue⟩ :=
      read_key item (sep rest ++ (itemsText rest ++ [41])) (by simpa [itemsText] using hdrop) hsp
    have hnot : ¬ (c = 40 ∨ c = 41) := by simpa using hparen
    simp only [bodyItems, hskip, hfirst, hnot, if_false, hread]
    -- what is left once the value has been read up to `k`
    have next : ∀ (k : Nat) (n : Option UInt32) (octets : Option Bytes),
        line.drop k = sep rest ++ (itemsText rest ++ [41]) →
        bodyItems line fuel k n octets = .ok (bodyFold (n, octets) rest) := fun k n octets hk =>
      ih fuel k (sep rest) n octets hwf' hfuel' (blank_sep rest) hk
    cases item with
    | uid m =>
      obtain ⟨k, hnum, hk, hval⟩ := read_number hvalue (toNat_lt_wordSize m) hrest
      have hkey : lower (FetchItem.uid m).key = str "uid" := by
        simp only [FetchItem.key]; decide
      simp only [hkey, if_true, hnum, hval, toUInt32_toNat]
      exact next k _ _ hk
    | size m =>
      obtain ⟨k, hnum, hk, -⟩ := read_number hvalue (toNat_lt_wordSize m) hrest
      have hkey : lower (FetchItem.size m).key = str "rfc822.size" := by
        simp only [FetchItem.key]; decide
      simp only [hkey, hnum]
      rw [if_neg (by decide), if_neg (by decide)]
      exact next k _ _ hk
    | internalDate v =>
      have hv : ∀ c ∈ v, c ≠ 34 ∧ c ≠ 92 := fun c hc =>
        ⟨(hwf _ List.mem_cons_self c hc).1, (hwf _ List.mem_cons_self c hc).2.1⟩
      obtain ⟨hquoted, hk⟩ := readAstring_quoted hvalue blank_space hv
      have hkey : lower (FetchItem.internalDate v).key = str "internaldate" := by
        simp only [FetchItem.key]; decide
      simp only [hkey, hquoted]
      rw [if_neg (by decide), if_neg (by decide)]
      exact next _ _ _ hk
    | flags names =>
      have hparen : line.drop j = [32] ++ 40 :: (FetchItem.spaced names ++ [41] ++
          (sep rest ++ (itemsText rest ++ [41]))) := by
        simpa [FetchItem.value, FetchItem.flagList] using hvalue
      have hnone := readAstring_paren hparen blank_space
      have hkey : lower (FetchItem.flags names).key = str "flags" := by
        simp only [FetchItem.key]; decide
      simp only [hkey, hnone]
      rw [if_neg (by decide), if_neg (by decide)]
      rfl
    | body o =>
      obtain ⟨hlit, hk⟩ := readAstring_literal hlen hvalue blank_space
      have hkey : lower (FetchItem.body o).key = str "body[]" := by
        simp only [FetchItem.key]; decide
      simp only [hkey, hlit]
      rw [if_neg (by decide), if_pos (by decide)]
      exact next _ _ _ hk

theorem metaItems_close {line sp : Bytes} {i fuel : Nat} {seen : Bool} {info : MessageMeta}
    (h : line.drop i = sp ++ [41]) (hsp : blank sp) :
    metaItems line (fuel + 2) i seen info = .ok (seen, info) := by
  have hskip : skipSpace line i = i + sp.length := skipSpace_of_append h hsp (by simp; decide)
  have hdrop : line.drop (i + sp.length) = [41] := drop_of_append h
  have hdrop' : line.drop (i + sp.length + 1) = [] := drop_of_append (a := [41]) hdrop
  have hskip' : skipSpace line (i + sp.length + 1) = i + sp.length + 1 := by
    simp [skipSpace, hdrop']
  simp only [metaItems, hskip, hdrop, hskip', hdrop']
  simp

/-- A flag list under the cursor. -/
theorem read_flags {line rest : Bytes} {j : Nat} {names : List Bytes}
    (h : line.drop j = [32] ++ (FetchItem.flagList names ++ rest))
    (hnames : ∀ name ∈ names, ∀ c ∈ name, isAtomChar c) :
    ∃ close, find line 41 (skipSpace line j) = some close ∧
      slice line (skipSpace line j) (close - skipSpace line j + 1) = FetchItem.flagList names ∧
      line.drop (close + 1) = rest := by
  have hskip : skipSpace line j = j + 1 :=
    skipSpace_of_append h blank_space (by simp [FetchItem.flagList]; decide)
  have hdrop : line.drop (j + 1) = FetchItem.flagList names ++ rest :=
    drop_of_append (a := [32]) h
  have hparen : (41 : Byte) ∉ 40 :: FetchItem.spaced names := by
    intro hmem
    rcases List.mem_cons.1 hmem with h40 | hmem
    · exact absurd h40 (by decide)
    · rcases FetchItem.mem_spaced hmem with h32 | ⟨name, hname, hc⟩
      · exact absurd h32 (by decide)
      · exact absurd (hnames name hname 41 hc) (by decide)
  have hsplit : line.drop (j + 1) = (40 :: FetchItem.spaced names) ++ 41 :: rest := by
    rw [hdrop]; simp [FetchItem.flagList]
  have hlen : (FetchItem.flagList names).length =
      (40 :: FetchItem.spaced names).length + 1 := by simp [FetchItem.flagList]
  refine ⟨_, by rw [hskip]; exact find_of_append hsplit hparen, ?_, ?_⟩
  · rw [hskip, Nat.add_sub_cancel_left, ← hlen, slice_of_append hdrop]
  · rw [Nat.add_assoc, ← hlen, drop_of_append hdrop]

theorem metaItems_spec {line : Bytes} :
    ∀ (items : List FetchItem) (fuel i : Nat) (sp : Bytes) (seen : Bool) (info : MessageMeta),
      (∀ item ∈ items, item.WellFormed) → (∀ item ∈ items, ∀ o, item ≠ .body o) →
      items.length + 2 ≤ fuel → blank sp →
      line.drop i = sp ++ (itemsText items ++ [41]) →
      metaItems line fuel i seen info = .ok (metaFold (seen, info) items) := by
  intro items
  induction items with
  | nil =>
    intro fuel i sp seen info _ _ hfuel hsp hdrop
    obtain ⟨fuel, rfl⟩ := Nat.exists_eq_add_of_le' hfuel
    exact metaItems_close hdrop hsp
  | cons item rest ih =>
    intro fuel i sp seen info hwf hbody hfuel hsp hdrop
    obtain ⟨fuel, rfl⟩ : ∃ k, fuel = k + 1 := ⟨fuel - 1, by simp at hfuel; omega⟩
    have hwf' : ∀ item ∈ rest, item.WellFormed := fun x hx => hwf x (List.mem_cons_of_mem _ hx)
    have hbody' : ∀ item ∈ rest, ∀ o, item ≠ .body o := fun x hx =>
      hbody x (List.mem_cons_of_mem _ hx)
    have hfuel' : rest.length + 2 ≤ fuel := by simp at hfuel; omega
    have hrest := rest_head rest
    obtain ⟨hskip, ⟨c, t, hfirst, hparen⟩, j, hread, hvalue⟩ :=
      read_key item (sep rest ++ (itemsText rest ++ [41])) (by simpa [itemsText] using hdrop) hsp
    have hnot : ¬ (c = 40 ∨ c = 41) := by simpa using hparen
    simp only [metaItems, hskip, hfirst, hnot, if_false, hread]
    have next : ∀ (k : Nat) (seen : Bool) (info : MessageMeta),
        line.drop k = sep rest ++ (itemsText rest ++ [41]) →
        metaItems line fuel k seen info = .ok (metaFold (seen, info) rest) := fun k seen info hk =>
      ih fuel k (sep rest) seen info hwf' hbody' hfuel' (blank_sep rest) hk
    cases item with
    | uid m =>
      obtain ⟨k, hnum, hk, hval⟩ := read_number hvalue (toNat_lt_wordSize m) hrest
      have hkey : lower (FetchItem.uid m).key = str "uid" := by
        simp only [FetchItem.key]; decide
      simp only [hkey, if_true, hnum, hval, toUInt32_toNat]
      exact next k _ _ hk
    | size m =>
      obtain ⟨k, hnum, hk, hval⟩ := read_number hvalue (toNat_lt_wordSize m) hrest
      have hkey : lower (FetchItem.size m).key = str "rfc822.size" := by
        simp only [FetchItem.key]; decide
      simp only [hkey, hnum, hval, toUInt32_toNat]
      rw [if_neg (by decide), if_pos trivial]
      exact next k _ _ hk
    | internalDate v =>
      have hv : ∀ c ∈ v, c ≠ 34 ∧ c ≠ 92 := fun c hc =>
        ⟨(hwf _ List.mem_cons_self c hc).1, (hwf _ List.mem_cons_self c hc).2.1⟩
      obtain ⟨hquoted, hk⟩ := readAstring_quoted hvalue blank_space hv
      have hkey : lower (FetchItem.internalDate v).key = str "internaldate" := by
        simp only [FetchItem.key]; decide
      simp only [hkey, hquoted]
      rw [if_neg (by decide), if_neg (by decide), if_neg (by decide), if_pos trivial]
      exact next _ _ _ hk
    | flags names =>
      obtain ⟨close, hclose, hslice, hk⟩ := read_flags hvalue (hwf _ List.mem_cons_self)
      have hkey : lower (FetchItem.flags names).key = str "flags" := by
        simp only [FetchItem.key]; decide
      simp only [hkey, hclose, hslice]
      rw [if_neg (by decide), if_neg (by decide), if_pos trivial]
      exact next _ _ _ hk
    | body o => exact absurd rfl (hbody _ List.mem_cons_self o)

/-! ## Lines -/

theorem findPat_digits (pat rest : Bytes) (hpat : ∀ c ∈ pat.head?, isDigit c = false)
    (hne : pat ≠ []) (ds : Bytes) (hds : ∀ c ∈ ds, isDigit c = true) :
    findPat pat (ds ++ (pat ++ rest)) = some ds.length := by
  induction ds with
  | nil =>
    obtain ⟨c, pat, rfl⟩ := List.exists_cons_of_ne_nil hne
    have hpre : (c :: pat) <+: c :: (pat ++ rest) := ⟨rest, rfl⟩
    simp only [List.nil_append, List.cons_append, findPat, hpre, if_true, List.length_nil]
  | cons d ds ih =>
    have hd := hds d List.mem_cons_self
    have hno : ¬ pat <+: d :: (ds ++ (pat ++ rest)) := by
      rintro ⟨t, ht⟩
      obtain ⟨c, pat, rfl⟩ := List.exists_cons_of_ne_nil hne
      simp only [List.cons_append, List.cons.injEq] at ht
      rw [ht.1] at hpat
      exact absurd hd (by simp [hpat d rfl])
    rw [List.cons_append, findPat, if_neg hno, ih fun c hc => hds c (List.mem_cons_of_mem _ hc)]
    rfl

/-- The items of an untagged FETCH line start at its parenthesis. -/
theorem fetchItems_line (l : FetchLine) :
    ∃ i, fetchItems l.line.text = some i ∧
      l.line.text.drop i = [40] ++ (itemsText l.items ++ [41]) := by
  have htext : l.line.text =
      [42, 32] ++ (decimal l.seq ++ (str " FETCH " ++ ([40] ++ (itemsText l.items ++ [41])))) := by
    rw [FetchLine.line, pack_text, FetchLine.intro]
    have hopen : str " FETCH (" = str " FETCH " ++ [40] := by decide
    simp [hopen]
  have hlower : lower l.line.text = [42, 32] ++ (decimal l.seq ++
      (str " fetch " ++ lower ([40] ++ (itemsText l.items ++ [41])))) := by
    have hword : lower (str " FETCH ") = str " fetch " := by decide
    rw [htext]
    simp only [lower_append, lower_decimal, hword]
    rfl
  have hspace' : ∀ c ∈ (str " fetch ").head?, isDigit c = false := by
    rw [show (str " fetch ").head? = some 32 by decide]
    rintro c ⟨⟩
    decide
  have hfind := findPat_digits (str " fetch ") (lower ([40] ++ (itemsText l.items ++ [41])))
    hspace' (by decide) (decimal l.seq) fun c => isDigit_of_mem_decimal
  obtain ⟨d, ds, hds⟩ := List.exists_cons_of_ne_nil (decimal_ne_nil l.seq)
  have hd : isDigit d = true := isDigit_of_mem_decimal (n := l.seq) (by rw [hds]; simp)
  have hstar : ∀ t : Bytes, ¬ str " fetch " <+: 42 :: t := by
    rintro t ⟨u, hu⟩
    have hhead : (32 : Byte) = 42 := (List.cons.inj hu).1
    exact absurd hhead (by decide)
  have hspace : ∀ t : Bytes, ¬ str " fetch " <+: 32 :: d :: t := by
    rintro t ⟨u, hu⟩
    have hhead : (102 : Byte) = d := (List.cons.inj (List.cons.inj hu).2).1
    rw [← hhead] at hd
    exact absurd hd (by decide)
  have hsub : findSub (lower l.line.text) (str " fetch ") 0 =
      some ((decimal l.seq).length + 1 + 1) := by
    rw [hds] at hfind
    simp only [List.cons_append, List.nil_append] at hfind
    rw [findSub, List.drop_zero, hlower, hds]
    simp only [List.cons_append, List.nil_append]
    rw [findPat, if_neg (hstar _), findPat, if_neg (hspace _), hfind]
    rfl
  refine ⟨(decimal l.seq).length + 1 + 1 + 7, ?_, ?_⟩
  · have hhead : l.line.text.head? = some 42 := by rw [htext]; rfl
    simp only [fetchItems, hhead, hsub]
    rfl
  · have hfront : l.line.text.drop 0 = ([42, 32] ++ decimal l.seq ++ str " FETCH ") ++
        ([40] ++ (itemsText l.items ++ [41])) := by
      rw [List.drop_zero, htext]
      simp only [List.append_assoc]
    have hlen : ([42, 32] ++ decimal l.seq ++ str " FETCH ").length =
        (decimal l.seq).length + 1 + 1 + 7 := by
      have hword : (str " FETCH ").length = 7 := by decide
      simp only [List.length_append, hword, List.length_cons, List.length_nil]
      omega
    have hdrop := drop_of_append hfront
    rwa [Nat.zero_add, hlen] at hdrop

/-- A line whose items stay on it. -/
def FetchLine.WellFormed (l : FetchLine) : Prop := ∀ item ∈ l.items, item.WellFormed

theorem FetchItem.text_no_newline (item : FetchItem) (h : item.WellFormed)
    (hbody : ∀ o, item ≠ .body o) : (10 : Byte) ∉ item.text := by
  have hdigits : ∀ n, (10 : Byte) ∉ decimal n := fun n h =>
    absurd (isDigit_of_mem_decimal h) (by decide)
  have hkey : (10 : Byte) ∉ item.key := by
    obtain ⟨c, atom, hkey, -, -, hatom⟩ := item.key_atom
    rw [hkey]
    exact fun h => absurd (hatom 10 h) (by decide)
  have hvalue : (10 : Byte) ∉ item.value := by
    cases item with
    | uid n => exact hdigits n.toNat
    | size n => exact hdigits n.toNat
    | internalDate v =>
      have hv : (10 : Byte) ∉ v := fun hc => (h 10 hc).2.2 rfl
      simp [FetchItem.value, hv]
    | flags names =>
      have hnames : (10 : Byte) ∉ FetchItem.spaced names := by
        intro hc
        rcases FetchItem.mem_spaced hc with hc | ⟨name, hname, hc⟩
        · exact absurd hc (by decide)
        · exact absurd (h name hname 10 hc) (by decide)
      simp [FetchItem.value, FetchItem.flagList, hnames]
    | body o => exact absurd rfl (hbody o)
  simp [FetchItem.text, hkey, hvalue]

theorem pack_wellFormed (items : List FetchItem) :
    ∀ text : Bytes, (∀ item ∈ items, item.WellFormed) → (10 : Byte) ∉ text →
      (pack text items).WellFormed := by
  have hsep : ∀ rest : List FetchItem, (10 : Byte) ∉ sep rest := fun rest h =>
    absurd (blank_sep rest 10 h) (by decide)
  induction items with
  | nil =>
    intro text _ htext
    exact ⟨by simp [pack], by simp [pack, htext], by simp [pack], by simp [pack]⟩
  | cons item rest ih =>
    intro text hwf htext
    have hwf' : ∀ item ∈ rest, item.WellFormed := fun x hx => hwf x (List.mem_cons_of_mem _ hx)
    -- an item without a literal joins the text run
    have plain : (∀ o, item ≠ .body o) → (pack (text ++ item.text ++ sep rest) rest).WellFormed := by
      intro hbody
      refine ih _ hwf' ?_
      simp [htext, item.text_no_newline (hwf item List.mem_cons_self) hbody, hsep]
    cases item with
    | body o =>
      have hrest := ih (sep rest) hwf' (hsep rest)
      refine ⟨?_, hrest.last, hrest.ends, hrest.nonempty⟩
      intro p hp
      rcases List.mem_cons.1 hp with rfl | hp
      · have hkey : (10 : Byte) ∉ str "BODY[] " := by decide
        simp [htext, hkey]
      · exact hrest.parts p hp
    | _ => exact plain (by simp)

theorem FetchLine.line_wellFormed {l : FetchLine} (h : l.WellFormed) : l.line.WellFormed := by
  refine pack_wellFormed l.items l.intro h ?_
  have hdigits : (10 : Byte) ∉ decimal l.seq := fun h => absurd (isDigit_of_mem_decimal h) (by decide)
  have hword : (10 : Byte) ∉ str " FETCH (" := by decide
  simp [FetchLine.intro, hdigits, hword]

theorem items_length_le (items : List FetchItem) : items.length ≤ (itemsText items).length := by
  induction items with
  | nil => simp
  | cons item rest ih =>
    simp only [itemsText, FetchItem.text, List.length_append, List.length_cons]
    omega

/-- An entry for a line that tells both its UID and its body. -/
def bodyOf (l : FetchLine) : Option FetchedBody :=
  match bodyFold (none, none) l.items with
  | (some uid, some rfc822) => some { uid, rfc822 }
  | _ => none

/-- An entry for a line that tells its UID. -/
def metaOf (l : FetchLine) : Option MessageMeta :=
  let (seen, info) := metaFold (false, {}) l.items
  if seen then some info else none

theorem skip_open {line rest : Bytes} {i : Nat} (h : line.drop i = [40] ++ rest) :
    skipSpace line i = i ∧ line.drop i = 40 :: rest ∧ line.drop (i + 1) = [] ++ rest := by
  have hopen : line.drop i = [] ++ 40 :: rest := h
  exact ⟨skipSpace_of_append hopen (by simp [blank]) (by simp; decide), h,
    drop_of_append (a := [40]) h⟩

theorem parseBodyLine_line {l : FetchLine} (h : l.WellFormed)
    (hlen : l.line.text.length < 2 ^ 63) : parseBodyLine l.line.text = .ok (bodyOf l) := by
  obtain ⟨i, hi, hdrop⟩ := fetchItems_line l
  obtain ⟨hskip, hopen, hitems⟩ := skip_open hdrop
  have hfuel : l.items.length + 2 ≤ l.line.text.length + 1 := by
    have hle := items_length_le l.items
    have := congrArg List.length hdrop
    simp only [List.length_drop, List.length_append, List.length_cons, List.length_nil] at this
    omega
  have hspec := bodyItems_spec hlen l.items _ (i + 1) [] none none h hfuel (by simp [blank]) hitems
  simp only [parseBodyLine, hi]
  rw [bodyItems]
  simp only [hskip, hopen, true_or, if_true, hspec]
  exact rfl

theorem parseMetaLine_line {l : FetchLine} (h : l.WellFormed)
    (hbody : ∀ item ∈ l.items, ∀ o, item ≠ .body o) :
    parseMetaLine l.line.text = .ok (metaOf l) := by
  obtain ⟨i, hi, hdrop⟩ := fetchItems_line l
  obtain ⟨hskip, hopen, hitems⟩ := skip_open hdrop
  have hfuel : l.items.length + 2 ≤ l.line.text.length + 1 := by
    have hle := items_length_le l.items
    have := congrArg List.length hdrop
    simp only [List.length_drop, List.length_append, List.length_cons, List.length_nil] at this
    omega
  have hspec := metaItems_spec l.items _ (i + 1) [] false {} h hbody hfuel (by simp [blank]) hitems
  simp only [parseMetaLine, hi]
  rw [metaItems]
  simp only [hskip, hopen, true_or, if_true, hspec]
  exact rfl

/-! ## Responses -/

def fetchResponse (lines : List FetchLine) : Bytes := respond (lines.map FetchLine.line)

theorem text_length_le {lines : List FetchLine} {l : FetchLine} (h : l ∈ lines) :
    l.line.text.length ≤ (fetchResponse lines).length := by
  induction lines with
  | nil => cases h
  | cons m lines ih =>
    simp only [fetchResponse, respond, List.map_cons, List.flatMap_cons, List.length_append] at ih ⊢
    rcases List.mem_cons.1 h with rfl | h
    · omega
    · have := ih h
      omega

/-- A batched fetch is read line by line, whatever octets the bodies are made of. -/
theorem parseFetchBodies_respond {lines : List FetchLine} (hwf : ∀ l ∈ lines, l.WellFormed)
    (hlen : (fetchResponse lines).length < 2 ^ 63) :
    parseFetchBodies (fetchResponse lines) = .ok (lines.filterMap bodyOf) := by
  have hsplit := splitLines_respond (lines.map FetchLine.line)
    (by simpa using fun l hl => FetchLine.line_wellFormed (hwf l hl)) hlen
  have hlines : Reply.mapM parseBodyLine ((lines.map FetchLine.line).map Line.text) =
      (.ok (lines.map bodyOf) : Reply ClientExn _) := by
    rw [List.map_map, Reply.mapM_map]
    exact Reply.mapM_ok fun l hl =>
      parseBodyLine_line (hwf l hl) (Nat.lt_of_le_of_lt (text_length_le hl) hlen)
  rw [parseFetchBodies, fetchResponse, hsplit, Reply.bind_ok, hlines, Reply.map_ok,
    List.filterMap_map]
  rfl

/-- So is a listing. -/
theorem parseFetchResponse_respond {lines : List FetchLine} (hwf : ∀ l ∈ lines, l.WellFormed)
    (hbody : ∀ l ∈ lines, ∀ item ∈ l.items, ∀ o, item ≠ .body o)
    (hlen : (fetchResponse lines).length < 2 ^ 63) :
    parseFetchResponse (fetchResponse lines) = .ok (lines.filterMap metaOf) := by
  have hsplit := splitLines_respond (lines.map FetchLine.line)
    (by simpa using fun l hl => FetchLine.line_wellFormed (hwf l hl)) hlen
  have hlines : Reply.mapM parseMetaLine ((lines.map FetchLine.line).map Line.text) =
      (.ok (lines.map metaOf) : Reply ClientExn _) := by
    rw [List.map_map, Reply.mapM_map]
    exact Reply.mapM_ok fun l hl => parseMetaLine_line (hwf l hl) (hbody l hl)
  rw [parseFetchResponse, fetchResponse, hsplit, Reply.bind_ok, hlines, Reply.map_ok,
    List.filterMap_map]
  rfl

end Imap
end Imap2Pst
