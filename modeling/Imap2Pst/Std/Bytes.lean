import Mathlib.Data.Nat.Digits.Defs
import Mathlib.Data.List.Infix
import Mathlib.Data.List.TakeWhile
import Mathlib.Tactic.IntervalCases

/-!
# Std.Bytes

Byte strings: what `std::string` and `std::vector<uint8_t>` are to a program that only looks at
octets. A cursor `i` into a string `s` is read through the suffix `s.drop i`, so that a scanner
is a function of `s` and `i` and its lemmas speak about the suffix.

* `find` / `findSub` / `rfind` — `std::string::find` and `rfind`; `none` is `npos`.
* `lower`, `isSpace`, `trim` — the C locale's `tolower`, `isspace`.
* `decimal` / `strtoul` — `std::to_string` of an unsigned value, and its inverse on digits.
* `fixedDigits` — a zero-padded `printf` field that is never overrun.
-/

namespace CxxStd

abbrev Byte := UInt8
abbrev Bytes := List Byte

instance instLawfulBEqBytes : LawfulBEq Bytes := List.instLawfulBEq

/-- The octets of an ASCII literal. -/
def str (s : String) : Bytes := s.toList.map fun c => c.toNat.toUInt8

/-- The octet of an ASCII character. -/
def chr (c : Char) : Byte := c.toNat.toUInt8

/-- A property of octets that holds of all 256. -/
theorem forall_byte {p : Byte → Prop} (h : ∀ i : Fin 256, p (UInt8.ofNat i)) (c : Byte) : p c := by
  have hc := h ⟨c.toNat, c.toNat_lt⟩
  rwa [UInt8.ofNat_toNat] at hc

/-- `s.substr(i, n)` for `i ≤ s.size()`. -/
def slice (s : Bytes) (i n : Nat) : Bytes := (s.drop i).take n

/-! ## Searching -/

/-- `s.find(c, i)`. -/
def find (s : Bytes) (c : Byte) (i : Nat) : Option Nat :=
  ((s.drop i).findIdx? (· == c)).map (· + i)

/-- Offset of the first occurrence of `pat` in `s`. -/
def findPat (pat : Bytes) : Bytes → Option Nat
  | [] => if pat = [] then some 0 else none
  | c :: cs => if pat <+: c :: cs then some 0 else (findPat pat cs).map (· + 1)

/-- `s.find(pat, i)`. -/
def findSub (s pat : Bytes) (i : Nat) : Option Nat :=
  (findPat pat (s.drop i)).map (· + i)

/-- `s.rfind(c)`. -/
def rfind (s : Bytes) (c : Byte) : Option Nat :=
  (s.reverse.findIdx? (· == c)).map fun k => s.length - 1 - k

theorem find_of_append {s pre rest : Bytes} {c : Byte} {i : Nat} (h : s.drop i = pre ++ c :: rest)
    (hpre : c ∉ pre) : find s c i = some (i + pre.length) := by
  have hnone : pre.findIdx? (· == c) = none := by
    rw [List.findIdx?_eq_none_iff]
    intro x hx
    simp only [beq_eq_false_iff_ne, ne_eq]
    rintro rfl
    exact hpre hx
  simp [find, h, List.findIdx?_append, hnone, List.findIdx?_cons, Nat.add_comm]

theorem find_eq_none {s : Bytes} {c : Byte} {i : Nat} (h : c ∉ s.drop i) : find s c i = none := by
  have : (s.drop i).findIdx? (· == c) = none := by
    rw [List.findIdx?_eq_none_iff]
    intro x hx
    simp only [beq_eq_false_iff_ne, ne_eq]
    rintro rfl
    exact h hx
  simp [find, this]

/-- What is left behind a part that has been read. -/
theorem drop_of_append {s a b : Bytes} {i : Nat} (h : s.drop i = a ++ b) :
    s.drop (i + a.length) = b := by
  rw [← List.drop_drop, h, List.drop_left]

theorem slice_of_append {s a b : Bytes} {i : Nat} (h : s.drop i = a ++ b) :
    slice s i a.length = a := by
  rw [slice, h, List.take_left]

theorem lt_length_of_drop {s b : Bytes} {c : Byte} {i : Nat} (h : s.drop i = c :: b) :
    i < s.length := by
  by_contra hle
  rw [List.drop_of_length_le (by omega)] at h
  cases h

theorem add_length_le_of_drop {s a b : Bytes} {i : Nat} (h : s.drop i = a ++ b) (ha : a ≠ []) :
    i + a.length ≤ s.length := by
  obtain ⟨c, a', rfl⟩ := List.exists_cons_of_ne_nil ha
  have hlt := lt_length_of_drop (h.trans (List.cons_append ..))
  have hlen := congrArg List.length h
  rw [List.length_drop, List.length_append] at hlen
  omega

theorem findPat_eq_some {pat s : Bytes} {k : Nat} (h : findPat pat s = some k) :
    k + pat.length ≤ s.length ∧ pat <+: s.drop k := by
  induction s generalizing k with
  | nil =>
    simp only [findPat] at h
    split at h
    · rename_i hnil
      cases h
      simp [hnil]
    · cases h
  | cons c cs ih =>
    simp only [findPat] at h
    split at h
    · rename_i hpre
      cases h
      exact ⟨by simpa using hpre.length_le, hpre⟩
    · obtain ⟨j, hj, rfl⟩ := Option.map_eq_some_iff.1 h
      obtain ⟨hlen, hpre⟩ := ih hj
      exact ⟨by simp only [List.length_cons]; omega, hpre⟩

theorem findSub_eq_some {s pat : Bytes} {i k : Nat} (h : findSub s pat i = some k) (hpat : pat ≠ []) :
    i ≤ k ∧ k + pat.length ≤ s.length ∧ pat <+: s.drop k := by
  obtain ⟨j, hj, rfl⟩ := Option.map_eq_some_iff.1 h
  obtain ⟨hlen, hpre⟩ := findPat_eq_some hj
  rw [List.drop_drop, Nat.add_comm] at hpre
  have hpos : 0 < pat.length := List.length_pos_iff.2 hpat
  rw [List.length_drop] at hlen
  exact ⟨by omega, by omega, hpre⟩

theorem find_eq_some {s : Bytes} {c : Byte} {i k : Nat} (h : find s c i = some k) :
    i ≤ k ∧ k < s.length := by
  obtain ⟨j, hj, rfl⟩ := Option.map_eq_some_iff.1 h
  obtain ⟨hlt, _⟩ := List.findIdx?_eq_some_iff_getElem.1 hj
  rw [List.length_drop] at hlt
  omega

theorem rfind_append_cons {pre post : Bytes} {c : Byte} (hpost : c ∉ post) :
    rfind (pre ++ c :: post) c = some pre.length := by
  have hnone : post.reverse.findIdx? (· == c) = none := by
    rw [List.findIdx?_eq_none_iff]
    intro x hx
    simp only [beq_eq_false_iff_ne, ne_eq]
    rintro rfl
    exact hpost (List.mem_reverse.mp hx)
  simp [rfind, List.findIdx?_append, hnone, List.findIdx?_cons]

/-- The last occurrence. -/
theorem exists_rfind (s : Bytes) (c : Byte) :
    rfind s c = none ∧ c ∉ s ∨
      ∃ pre post, s = pre ++ c :: post ∧ c ∉ post ∧ rfind s c = some pre.length := by
  by_cases hmem : c ∈ s
  · right
    obtain ⟨post, pre, hsplit, hpost⟩ := List.eq_append_cons_of_mem (List.mem_reverse.2 hmem)
    have hs : s = pre.reverse ++ c :: post.reverse := by
      rw [← List.reverse_reverse s, hsplit]
      simp
    have hlast : c ∉ post.reverse := by rwa [List.mem_reverse]
    exact ⟨_, _, hs, hlast, hs ▸ rfind_append_cons hlast⟩
  · left
    refine ⟨?_, hmem⟩
    rw [rfind, Option.map_eq_none_iff, List.findIdx?_eq_none_iff]
    intro x hx
    rw [beq_eq_false_iff_ne]
    rintro rfl
    exact hmem (List.mem_reverse.1 hx)

theorem rfind_eq_none {s : Bytes} {c : Byte} (h : c ∉ s) : rfind s c = none := by
  obtain ⟨hnone, -⟩ | ⟨pre, post, rfl, -⟩ := exists_rfind s c
  · exact hnone
  · exact absurd (by simp) h

theorem take_find (s : Bytes) (c : Byte) :
    s.take ((find s c 0).getD s.length) = s.takeWhile (· ≠ c) := by
  by_cases h : c ∈ s
  · obtain ⟨pre, post, rfl, hpre⟩ := List.eq_append_cons_of_mem h
    have hfind : find (pre ++ c :: post) c 0 = some pre.length := by
      rw [find_of_append rfl hpre, Nat.zero_add]
    rw [hfind, Option.getD_some, List.take_left, List.takeWhile_append_of_pos,
      List.takeWhile_cons_of_neg (by simp), List.append_nil]
    intro x hx
    exact decide_eq_true fun heq => hpre (heq ▸ hx)
  · rw [find_eq_none (by rwa [List.drop_zero]), Option.getD_none, List.take_length]
    refine (List.takeWhile_eq_self_iff.2 fun x hx => ?_).symm
    exact decide_eq_true fun heq => h (heq ▸ hx)

theorem find_append_ge {front rest : Bytes} {c : Byte} {k : Nat} (hfront : c ∉ front)
    (h : find (front ++ rest) c 0 = some k) : front.length ≤ k := by
  have hnone : front.findIdx? (· == c) = none := by
    rw [List.findIdx?_eq_none_iff]
    rintro x hx
    exact beq_false_of_ne fun heq => hfront (heq ▸ hx)
  rw [find, List.drop_zero, List.findIdx?_append, hnone, Option.none_or] at h
  simp only [Option.map_map, Option.map_eq_some_iff] at h
  obtain ⟨j, -, rfl⟩ := h
  simp

/-- A pattern is found at its first octet, where that stands nowhere before. -/
theorem findPat_behind {c : Byte} {pat front : Bytes} (rest : Bytes) (h : c ∉ front) :
    findPat (c :: pat) (front ++ (c :: pat ++ rest)) = some front.length := by
  induction front with
  | nil =>
    have hpre : c :: pat <+: c :: (pat ++ rest) := List.prefix_append (c :: pat) rest
    exact if_pos hpre
  | cons d front ih =>
    have hd : ¬ c :: pat <+: d :: (front ++ (c :: pat ++ rest)) := fun hpre =>
      h ((List.cons_prefix_cons.1 hpre).1 ▸ List.mem_cons_self)
    rw [List.cons_append, findPat, if_neg hd, ih fun hmem => h (List.mem_cons_of_mem d hmem)]
    rfl

/-! ## Character classes of the C locale -/

def isDigit (c : Byte) : Bool := 48 ≤ c && c ≤ 57

def isSpace (c : Byte) : Bool := c = 32 || (9 ≤ c && c ≤ 13)

def toLower (c : Byte) : Byte := if 65 ≤ c && c ≤ 90 then c + 32 else c

def lower (s : Bytes) : Bytes := s.map toLower

@[simp] theorem lower_length (s : Bytes) : (lower s).length = s.length := by simp [lower]

@[simp] theorem lower_append (s t : Bytes) : lower (s ++ t) = lower s ++ lower t := by
  simp [lower]

/-- `s` without the white space at either end. -/
def trim (s : Bytes) : Bytes := ((s.dropWhile isSpace).reverse.dropWhile isSpace).reverse

/-- What a C function sees of `s.c_str()`. -/
def cstr (s : Bytes) : Bytes := s.takeWhile (· ≠ 0)

/-! ## Numbers -/

/-- `std::to_string` of an unsigned value. -/
def decimal (n : Nat) : Bytes :=
  if n = 0 then [48] else ((Nat.digits 10 n).map fun d => d.toUInt8 + 48).reverse

/-- The value of one decimal digit. -/
def digitVal (c : Byte) : Nat := c.toNat - 48

/-- The value of a run of decimal digits. -/
def digitsVal (ds : Bytes) : Nat := ds.foldl (fun acc c => acc * 10 + digitVal c) 0

/-- Bound of `unsigned long` and `std::size_t`. -/
def wordSize : Nat := 2 ^ 64

/-- `strtoul(s + i, nullptr, 10)` on a 64-bit platform: leading white space, an optional sign,
digits; saturating at `ULONG_MAX`, and negating modulo the word size after a minus sign. -/
def strtoul (s : Bytes) : Nat :=
  let t := s.dropWhile isSpace
  let neg := t.head? = some 45
  let u := if neg || t.head? = some 43 then t.tail else t
  let v := digitsVal (u.takeWhile isDigit)
  if wordSize ≤ v then wordSize - 1
  else if neg then (wordSize - v) % wordSize else v

/-- Addition of `std::size_t` values. -/
def addSize (a b : Nat) : Nat := (a + b) % wordSize

theorem addSize_of_lt {a b : Nat} (h : a + b < wordSize) : addSize a b = a + b :=
  Nat.mod_eq_of_lt h

theorem digitsVal_concat (ds : Bytes) (c : Byte) :
    digitsVal (ds ++ [c]) = digitsVal ds * 10 + digitVal c := by
  simp [digitsVal]

theorem digitVal_digitByte {d : Nat} (h : d < 10) : digitVal (d.toUInt8 + 48) = d := by
  interval_cases d <;> rfl

theorem isDigit_digitByte {d : Nat} (h : d < 10) : isDigit (d.toUInt8 + 48) = true := by
  interval_cases d <;> rfl

theorem digitsVal_digits (ds : List Nat) (h : ∀ d ∈ ds, d < 10) :
    digitsVal (ds.map fun d => d.toUInt8 + 48).reverse = Nat.ofDigits 10 ds := by
  induction ds with
  | nil => simp [digitsVal]
  | cons d ds ih =>
    have hds := ih fun x hx => h x (by simp [hx])
    rw [List.map_cons, List.reverse_cons, digitsVal_concat, hds,
      digitVal_digitByte (h d (by simp)), Nat.ofDigits_cons]
    omega

theorem digitsVal_decimal (n : Nat) : digitsVal (decimal n) = n := by
  unfold decimal
  split
  · rename_i h; subst h; rfl
  · rw [digitsVal_digits _ fun d hd => Nat.digits_lt_base (by decide) hd, Nat.ofDigits_digits]

theorem decimal_ne_nil (n : Nat) : decimal n ≠ [] := by
  unfold decimal
  split
  · simp
  · rename_i h
    simpa using Nat.digits_ne_nil_iff_ne_zero.mpr h

theorem isDigit_of_mem_decimal {n : Nat} {c : Byte} (h : c ∈ decimal n) : isDigit c = true := by
  unfold decimal at h
  split at h
  · rw [List.mem_singleton.mp h]; rfl
  · simp only [List.mem_reverse, List.mem_map] at h
    obtain ⟨d, hd, rfl⟩ := h
    exact isDigit_digitByte (Nat.digits_lt_base (by decide) hd)

theorem not_mem_decimal {c : Byte} (hc : isDigit c = false) (n : Nat) : c ∉ decimal n := by
  intro hmem
  rw [isDigit_of_mem_decimal hmem] at hc
  cases hc

theorem toLower_of_isDigit {c : Byte} (h : isDigit c = true) : toLower c = c := by
  have hle : ¬ 65 ≤ c := by
    simp only [isDigit, Bool.and_eq_true, decide_eq_true_eq, UInt8.le_iff_toNat_le,
      UInt8.toNat_ofNat] at h ⊢
    omega
  simp [toLower, hle]

theorem lower_decimal (n : Nat) : lower (decimal n) = decimal n := by
  have h : ∀ c ∈ decimal n, toLower c = id c := fun c hc =>
    toLower_of_isDigit (isDigit_of_mem_decimal hc)
  rw [lower, List.map_congr_left h, List.map_id]

theorem not_isSpace_of_isDigit {c : Byte} (h : isDigit c = true) : isSpace c = false := by
  simp only [isDigit, isSpace, Bool.and_eq_true, decide_eq_true_eq, Bool.or_eq_false_iff,
    decide_eq_false_iff_not, Bool.and_eq_false_iff] at *
  rw [UInt8.le_iff_toNat_le, UInt8.le_iff_toNat_le] at h
  simp only [← UInt8.toNat_inj, UInt8.le_iff_toNat_le]
  simp only [UInt8.toNat_ofNat] at *
  omega

/-- A number is read back, whatever follows its digits. -/
theorem strtoul_decimal {n : Nat} (hn : n < wordSize) {rest : Bytes}
    (hrest : ∀ c ∈ rest.head?, isDigit c = false) : strtoul (decimal n ++ rest) = n := by
  obtain ⟨c, ds, hds⟩ := List.exists_cons_of_ne_nil (decimal_ne_nil n)
  have hc : isDigit c = true := isDigit_of_mem_decimal (n := n) (by rw [hds]; simp)
  have hdrop : (decimal n ++ rest).dropWhile isSpace = decimal n ++ rest := by
    rw [hds, List.cons_append, List.dropWhile_cons_of_neg (by simp [not_isSpace_of_isDigit hc])]
  have hsign : c ≠ 45 ∧ c ≠ 43 := by
    constructor <;> rintro rfl <;> exact absurd hc (by decide)
  have htake : (decimal n ++ rest).takeWhile isDigit = decimal n := by
    rw [List.takeWhile_append_of_pos fun c hc => isDigit_of_mem_decimal hc]
    cases rest with
    | nil => simp
    | cons d rest => rw [List.takeWhile_cons_of_neg (by simp [hrest d rfl])]; simp
  have hhead : (decimal n ++ rest).head? = some c := by rw [hds]; rfl
  simp only [strtoul, hdrop, hhead, Option.some.injEq, hsign.1, hsign.2, decide_false,
    Bool.or_self, Bool.false_eq_true, if_false, htake, digitsVal_decimal]
  rw [if_neg (by omega)]

theorem strtoul_decimal_nil {n : Nat} (hn : n < wordSize) : strtoul (decimal n) = n := by
  have h : strtoul (decimal n ++ []) = n := strtoul_decimal hn (by simp)
  rwa [List.append_nil] at h

/-- The `width` low digits of `n` in base `b`, most significant first. -/
def fixedDigits (b : Nat) : Nat → Nat → List Nat
  | 0, _ => []
  | w + 1, n => fixedDigits b w (n / b) ++ [n % b]

@[simp] theorem fixedDigits_length (b w n : Nat) : (fixedDigits b w n).length = w := by
  induction w generalizing n with
  | zero => rfl
  | succ w ih => simp [fixedDigits, ih]

theorem mem_fixedDigits_lt {b w n d : Nat} (hb : 0 < b) (h : d ∈ fixedDigits b w n) : d < b := by
  induction w generalizing n with
  | zero => simp [fixedDigits] at h
  | succ w ih =>
    simp only [fixedDigits, List.mem_append, List.mem_singleton] at h
    rcases h with h | rfl
    · exact ih h
    · exact Nat.mod_lt _ hb

theorem fixedDigits_inj {b w m n : Nat} (hm : m < b ^ w) (hn : n < b ^ w)
    (h : fixedDigits b w m = fixedDigits b w n) : m = n := by
  induction w generalizing m n with
  | zero => simp at hm hn; omega
  | succ w ih =>
    obtain ⟨hq, hr⟩ := List.append_inj h (by simp)
    have hq' : m / b = n / b :=
      ih (Nat.div_lt_of_lt_mul (by rw [Nat.pow_succ, Nat.mul_comm] at hm; exact hm))
        (Nat.div_lt_of_lt_mul (by rw [Nat.pow_succ, Nat.mul_comm] at hn; exact hn)) hq
    have hr' : m % b = n % b := by simpa using hr
    rw [← Nat.div_add_mod m b, ← Nat.div_add_mod n b, hq', hr']

end CxxStd
