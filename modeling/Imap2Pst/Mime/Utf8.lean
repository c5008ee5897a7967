import Imap2Pst.Mime.Headers
import Imap2Pst.Std.Text
import Imap2Pst.Std.Unicode

/-!
# Mime.Utf8

What `isValidUtf8` says of texts put together and cut apart, and which functions of the MIME
layer return UTF-8 whatever they are given.

* `isValidUtf8_append_start` — a text may be cut where a character starts.
* `isValidUtf8_of_validUtf8` — the octets of a text are accepted.
* `isValidUtf8_toUtf8` / `isValidUtf8_headerText` — the two functions that recover.
-/

namespace Imap2Pst
namespace Mime

open CxxStd

/-! ## Characters -/

/-- The octet carries on a character. -/
def isContinuation (c : Byte) : Bool := c &&& 0xC0 = 0x80

theorem not_isContinuation_of_ascii {c : Byte} (h : c < 0x80) : isContinuation c = false := by
  revert h
  exact forall_byte (p := fun c => c < 0x80 → isContinuation c = false) (by decide +kernel) c

theorem not_isContinuation_of_lead {c : Byte} {x : Nat × UInt32} (h : leadOctet c = some x) :
    isContinuation c = false := by
  have hall := forall_byte (p := fun c => (leadOctet c).isSome → isContinuation c = false)
    (by decide +kernel) c
  exact hall (by rw [h]; rfl)

/-- The text is empty or begins with a character. -/
def startsCharacter (s : Bytes) : Bool := s.head?.all fun c => !isContinuation c

theorem continuation_append {n : Nat} {bits : UInt32} {a b : Bytes}
    (hb : startsCharacter b = true) : continuation n bits (a ++ b) = continuation n bits a := by
  induction n generalizing bits a with
  | zero => cases a <;> rfl
  | succ n ih =>
    cases a with
    | nil =>
      cases b with
      | nil => rfl
      | cons c b =>
        have hc : ¬ c &&& 0xC0 = 0x80 := by simpa [startsCharacter, isContinuation] using hb
        simp only [List.nil_append, continuation, if_neg hc]
    | cons c a =>
      simp only [List.cons_append, continuation]
      split
      · exact ih
      · rfl

theorem continuation_eq_some {n : Nat} {bits cp : UInt32} {a : Bytes}
    (h : continuation n bits a = some cp) (b : Bytes) :
    n ≤ a.length ∧ continuation n bits (a ++ b) = some cp := by
  induction n generalizing bits a with
  | zero => exact ⟨Nat.zero_le _, by cases a <;> cases b <;> exact h⟩
  | succ n ih =>
    cases a with
    | nil => cases h
    | cons c a =>
      simp only [continuation] at h
      split at h
      · rename_i hc
        obtain ⟨hle, happ⟩ := ih h
        refine ⟨Nat.succ_le_succ hle, ?_⟩
        rw [List.cons_append, continuation, if_pos hc, happ]
      · cases h

/-! ## Texts put together -/

theorem isValidUtf8From_append_start {skip : Nat} {a b : Bytes} (hskip : skip ≤ a.length)
    (hb : startsCharacter b = true) :
    isValidUtf8From skip (a ++ b) = (isValidUtf8From skip a && isValidUtf8 b) := by
  induction a generalizing skip with
  | nil =>
    cases Nat.le_zero.1 hskip
    rfl
  | cons c a ih =>
    cases skip with
    | succ skip => exact ih (Nat.le_of_succ_le_succ hskip)
    | zero =>
      simp only [List.cons_append, isValidUtf8From, continuation_append hb]
      split
      · exact ih (Nat.zero_le _)
      · split
        · rfl
        · rename_i extra bits _
          cases hcp : continuation extra bits a with
          | none => rfl
          | some cp =>
            have hle := (continuation_eq_some hcp []).1
            rw [ih hle, Bool.and_assoc]

theorem isValidUtf8From_append_of_valid {skip : Nat} {a b : Bytes} (hskip : skip ≤ a.length)
    (ha : isValidUtf8From skip a = true) : isValidUtf8From skip (a ++ b) = isValidUtf8 b := by
  induction a generalizing skip with
  | nil =>
    cases Nat.le_zero.1 hskip
    rfl
  | cons c a ih =>
    cases skip with
    | succ skip => exact ih (Nat.le_of_succ_le_succ hskip) ha
    | zero =>
      simp only [List.cons_append, isValidUtf8From] at ha ⊢
      split at ha
      · rename_i hc
        rw [if_pos hc]
        exact ih (Nat.zero_le _) ha
      · rename_i hc
        rw [if_neg hc]
        split at ha
        · cases ha
        · rename_i extra bits hlead
          split at ha
          · cases ha
          · rename_i cp hcp
            obtain ⟨hle, happ⟩ := continuation_eq_some hcp b
            rw [Bool.and_eq_true] at ha
            rw [happ]
            dsimp only
            rw [ha.1, ih hle ha.2, Bool.true_and]

/-- A text may be cut where a character starts. -/
theorem isValidUtf8_append_start {a b : Bytes} (hb : startsCharacter b = true) :
    isValidUtf8 (a ++ b) = (isValidUtf8 a && isValidUtf8 b) :=
  isValidUtf8From_append_start (Nat.zero_le _) hb

/-- What follows a text decides by itself. -/
theorem isValidUtf8_append_of_valid {a b : Bytes} (ha : isValidUtf8 a = true) :
    isValidUtf8 (a ++ b) = isValidUtf8 b :=
  isValidUtf8From_append_of_valid (Nat.zero_le _) ha

theorem startsCharacter_of_valid {s : Bytes} (h : isValidUtf8 s = true) :
    startsCharacter s = true := by
  cases s with
  | nil => rfl
  | cons c s =>
    have hc : isContinuation c = false := by
      simp only [isValidUtf8, isValidUtf8From] at h
      split at h
      · rename_i hascii
        exact not_isContinuation_of_ascii hascii
      · split at h
        · cases h
        · rename_i hlead
          exact not_isContinuation_of_lead hlead
    simp [startsCharacter, hc]

theorem isValidUtf8_append {a b : Bytes} (ha : isValidUtf8 a = true) (hb : isValidUtf8 b = true) :
    isValidUtf8 (a ++ b) = true := by
  rw [isValidUtf8_append_of_valid ha, hb]

theorem isValidUtf8_flatten {l : List Bytes} (h : ∀ s ∈ l, isValidUtf8 s = true) :
    isValidUtf8 l.flatten = true := by
  induction l with
  | nil => rfl
  | cons s l ih =>
    rw [List.flatten_cons]
    exact isValidUtf8_append (h s List.mem_cons_self) (ih fun t ht => h t (.tail s ht))

/-! ## ASCII at the ends and in between -/

theorem isValidUtf8_append_ascii {a b : Bytes} {c : Byte} (hc : c < 0x80) :
    isValidUtf8 (a ++ c :: b) = (isValidUtf8 a && isValidUtf8 b) := by
  have hstart : startsCharacter (c :: b) = true := by
    simp [startsCharacter, not_isContinuation_of_ascii hc]
  have hcons : isValidUtf8 (c :: b) = isValidUtf8 b := by
    simp only [isValidUtf8, isValidUtf8From, if_pos hc]
  rw [isValidUtf8_append_start hstart, hcons]

/-- Octets of ASCII around a text do not count. -/
theorem isValidUtf8_between {a s b : Bytes} (ha : ∀ c ∈ a, c < 0x80) (hb : ∀ c ∈ b, c < 0x80) :
    isValidUtf8 (a ++ s ++ b) = isValidUtf8 s := by
  rw [List.append_assoc, isValidUtf8_append_of_valid (isValidUtf8_of_ascii ha)]
  cases b with
  | nil => rw [List.append_nil]
  | cons c b =>
    rw [isValidUtf8_append_ascii (hb c List.mem_cons_self),
      isValidUtf8_of_ascii fun d hd => hb d (.tail c hd), Bool.and_true]

theorem ascii_of_isSpace {c : Byte} (h : isSpace c = true) : c < 0x80 := by
  revert h
  exact forall_byte (p := fun c => isSpace c = true → c < 0x80) (by decide +kernel) c

theorem ascii_of_blank {s : Bytes} (h : Blank s) : ∀ c ∈ s, c < 0x80 :=
  fun c hc => ascii_of_isSpace (h c hc)

theorem isValidUtf8_trim (s : Bytes) : isValidUtf8 (trim s) = isValidUtf8 s := by
  obtain ⟨a, b, hs, ha, hb⟩ := exists_trim s
  conv_rhs => rw [hs]
  rw [isValidUtf8_between (ascii_of_blank ha) (ascii_of_blank hb)]

theorem isValidUtf8From_lower (skip : Nat) (s : Bytes) :
    isValidUtf8From skip (lower s) = isValidUtf8From skip s := by
  have hascii : ∀ c : Byte, toLower c < 0x80 ↔ c < 0x80 := forall_byte (by decide +kernel)
  have hhigh (c : Byte) (hc : ¬ c < 0x80) : toLower c = c := by
    have hall := forall_byte (p := fun c => ¬ c < 0x80 → toLower c = c) (by decide +kernel)
    exact hall c hc
  have hcont (n : Nat) (bits : UInt32) (t : Bytes) :
      continuation n bits (lower t) = continuation n bits t := by
    induction n generalizing bits t with
    | zero => cases t <;> rfl
    | succ n ih =>
      cases t with
      | nil => rfl
      | cons c t =>
        have htail : lower (c :: t) = toLower c :: lower t := rfl
        rw [htail]
        simp only [continuation]
        by_cases hc : c < 0x80
        · have h₁ : ¬ c &&& 0xC0 = 0x80 := by
            simpa [isContinuation] using not_isContinuation_of_ascii hc
          have h₂ : ¬ toLower c &&& 0xC0 = 0x80 := by
            simpa [isContinuation] using not_isContinuation_of_ascii ((hascii c).2 hc)
          rw [if_neg h₁, if_neg h₂]
        · rw [hhigh c hc, ih]
  induction s generalizing skip with
  | nil => rfl
  | cons c s ih =>
    have hcons : lower (c :: s) = toLower c :: lower s := rfl
    rw [hcons]
    cases skip with
    | succ skip => exact ih skip
    | zero =>
      simp only [isValidUtf8From]
      by_cases hc : c < 0x80
      · rw [if_pos hc, if_pos ((hascii c).2 hc), ih]
      · rw [if_neg hc, if_neg (mt (hascii c).1 hc), hhigh c hc]
        simp only [hcont, ih]

theorem isValidUtf8_lower (s : Bytes) : isValidUtf8 (lower s) = isValidUtf8 s :=
  isValidUtf8From_lower 0 s

/-! ## Functions that recover -/

theorem isValidUtf8_windows1252ToUtf8 (s : Bytes) :
    isValidUtf8 (windows1252ToUtf8 s) = true := by
  have hpiece : ∀ c : Byte, isValidUtf8 (if c < 0x80 then [c]
      else if c < 0xA0 then appendUtf8 (kCp1252High.getD (c - 0x80).toNat 0)
      else appendUtf8 c.toUInt32) = true := forall_byte (by decide +kernel)
  rw [windows1252ToUtf8, List.flatMap_def]
  refine isValidUtf8_flatten fun t ht => ?_
  obtain ⟨c, _, rfl⟩ := List.mem_map.1 ht
  exact hpiece c

theorem isValidUtf8_recoverUtf8 (s : Bytes) : isValidUtf8 (recoverUtf8 s) = true := by
  unfold recoverUtf8
  split
  · assumption
  · exact isValidUtf8_windows1252ToUtf8 s

/-- What ICU promises: a conversion that succeeds returns UTF-8. -/
def ReturnsUtf8 (icu : Converter) : Prop :=
  ∀ charset input output, icu charset input = some output → isValidUtf8 output = true

/-! ## Encoded characters -/

theorem isValidUtf8From_skip (a b : Bytes) :
    isValidUtf8From a.length (a ++ b) = isValidUtf8From 0 b := by
  induction a with
  | nil => rfl
  | cons c a ih =>
    rw [List.cons_append, List.length_cons, isValidUtf8From]
    exact ih

/-- Six more bits, in 32 bits and in the integers. -/
theorem six_more {bits : UInt32} {c : Byte} (hbits : bits.toNat < 2 ^ 26)
    (hc : (c &&& 0x3F).toNat < 64) :
    (bits <<< 6 ||| (c &&& 0x3F).toUInt32).toNat = bits.toNat * 64 + (c &&& 0x3F).toNat ∧
      bits.toNat <<< 6 ||| (c &&& 0x3F).toNat = bits.toNat * 64 + (c &&& 0x3F).toNat := by
  have hor : bits.toNat <<< 6 ||| (c &&& 0x3F).toNat = bits.toNat * 64 + (c &&& 0x3F).toNat := by
    rw [← Nat.shiftLeft_add_eq_or_of_lt hc, Nat.shiftLeft_eq]
  refine ⟨?_, hor⟩
  rw [UInt32.toNat_or, UInt32.toNat_shiftLeft, UInt8.toNat_toUInt32]
  have hsmall : bits.toNat <<< 6 % 2 ^ 32 = bits.toNat <<< 6 := by
    rw [Nat.shiftLeft_eq]
    omega
  exact (congrArg (· ||| (c &&& 0x3F).toNat) hsmall).trans hor

/-- Continuations carry six bits each. -/
theorem continuation_octets {ts : List Nat} (hts : ∀ t ∈ ts, t < 64) {bits : UInt32}
    (hbits : (bits.toNat + 1) * 64 ^ ts.length ≤ 2 ^ 26) (s : Bytes) :
    ∃ cp, continuation ts.length bits (ts.map (fun t => UInt8.ofNat (t + 0x80)) ++ s) = some cp ∧
      cp.toNat = ts.foldl (fun n t => n * 64 + t) bits.toNat := by
  induction ts generalizing bits with
  | nil => exact ⟨bits, by cases s <;> rfl, rfl⟩
  | cons t ts ih =>
    rw [List.forall_mem_cons] at hts
    have hall : ∀ t : Fin 64, UInt8.ofNat (t.val + 0x80) &&& 0xC0 = 0x80 ∧
        (UInt8.ofNat (t.val + 0x80) &&& 0x3F).toNat = t.val := by decide
    obtain ⟨hmark, hvalue⟩ := hall ⟨t, hts.1⟩
    rw [List.length_cons, Nat.pow_succ', ← Nat.mul_assoc] at hbits
    have hpos : 0 < 64 ^ ts.length := Nat.pow_pos (by omega)
    have hbound : bits.toNat < 2 ^ 26 := by
      have hle := Nat.le_trans (Nat.le_mul_of_pos_right _ hpos) hbits
      omega
    have hword := (six_more hbound (hvalue.trans_lt hts.1)).1
    rw [hvalue] at hword
    have hnext : ((bits <<< 6 ||| (UInt8.ofNat (t + 0x80) &&& 0x3F).toUInt32).toNat + 1) *
        64 ^ ts.length ≤ 2 ^ 26 := by
      rw [hword]
      exact Nat.le_trans (Nat.mul_le_mul_right _ (by have := hts.1; omega)) hbits
    obtain ⟨cp, hcp, hsum⟩ := ih hts.2 hnext
    refine ⟨cp, ?_, by rw [hsum, hword, List.foldl_cons]⟩
    rw [List.map_cons, List.cons_append, List.length_cons, continuation, if_pos hmark, hcp]

/-- A character beyond ASCII is accepted by its lead. -/
theorem isValidUtf8From_lead {c : Byte} {extra : Nat} {bits : UInt32} {ts : List Nat} (ch : Char)
    (hc : ¬ c < 0x80) (hlead : leadOctet c = some (extra, bits)) (hextra : ts.length = extra)
    (hts : ∀ t ∈ ts, t < 64) (hbits : (bits.toNat + 1) * 64 ^ extra ≤ 2 ^ 26)
    (hsum : ch.toNat = ts.foldl (fun n t => n * 64 + t) bits.toNat)
    (hshort : (extra = 1 → 0x80 ≤ ch.toNat) ∧ (extra = 2 → 0x800 ≤ ch.toNat) ∧
      (extra = 3 → 0x10000 ≤ ch.toNat)) (s : Bytes) :
    isValidUtf8From 0 (c :: ts.map (fun t => UInt8.ofNat (t + 0x80)) ++ s) =
      isValidUtf8From 0 s := by
  subst hextra
  obtain ⟨cp, hcp, hvalue⟩ := continuation_octets hts hbits s
  have hchar : cp.toNat = ch.toNat := hvalue.trans hsum.symm
  have hvalid := char_range ch
  have hacceptable : acceptable ts.length cp = true := by
    simp only [acceptable, Bool.not_eq_true', Bool.or_eq_false_iff, Bool.and_eq_false_iff,
      decide_eq_false_iff_not, UInt32.lt_iff_toNat_lt, UInt32.le_iff_toNat_le,
      UInt32.reduceToNat, hchar]
    omega
  have hskip := isValidUtf8From_skip (ts.map fun t => UInt8.ofNat (t + 0x80)) s
  rw [List.length_map] at hskip
  rw [List.cons_append, isValidUtf8From, if_neg hc, hlead]
  dsimp only
  rw [hcp]
  dsimp only
  rw [hacceptable, hskip, Bool.true_and]

theorem isValidUtf8From_char (ch : Char) (s : Bytes) :
    isValidUtf8From 0 (String.utf8EncodeChar ch ++ s) = isValidUtf8From 0 s := by
  have hrange := char_range ch
  rw [String.utf8EncodeChar, Char.toNat_val]
  split
  · have hascii : UInt8.ofNat ch.toNat < 0x80 := by
      rw [UInt8.lt_iff_toNat_lt, UInt8.toNat_ofNat']
      show ch.toNat % 256 < 128
      omega
    rw [List.cons_append, isValidUtf8From, if_pos hascii, List.nil_append]
  split
  · have hall : ∀ n : Fin 32, ¬ UInt8.ofNat (n.val + 0xC0) < 0x80 ∧
        leadOctet (UInt8.ofNat (n.val + 0xC0)) = some (1, n.val.toUInt32) ∧
          n.val.toUInt32.toNat = n.val := by decide
    obtain ⟨hc, hlead, hn⟩ := hall ⟨ch.toNat / 64 % 32, by omega⟩
    refine @isValidUtf8From_lead _ _ _ [ch.toNat % 64] ch hc hlead rfl ?_ ?_ ?_ (by omega) s
    · simp only [List.mem_singleton, forall_eq]
      omega
    · rw [hn]
      dsimp only
      omega
    · rw [hn]
      simp only [List.foldl_cons, List.foldl_nil]
      omega
  split
  · have hall : ∀ n : Fin 16, ¬ UInt8.ofNat (n.val + 0xE0) < 0x80 ∧
        leadOctet (UInt8.ofNat (n.val + 0xE0)) = some (2, n.val.toUInt32) ∧
          n.val.toUInt32.toNat = n.val := by decide
    obtain ⟨hc, hlead, hn⟩ := hall ⟨ch.toNat / 4096 % 16, by omega⟩
    refine @isValidUtf8From_lead _ _ _ [ch.toNat / 64 % 64, ch.toNat % 64] ch hc hlead rfl ?_ ?_ ?_
      (by omega) s
    · simp only [List.mem_cons, List.not_mem_nil, or_false, forall_eq_or_imp, forall_eq]
      omega
    · rw [hn]
      dsimp only
      omega
    · rw [hn]
      simp only [List.foldl_cons, List.foldl_nil]
      omega
  · have hall : ∀ n : Fin 8, ¬ UInt8.ofNat (n.val + 0xF0) < 0x80 ∧
        leadOctet (UInt8.ofNat (n.val + 0xF0)) = some (3, n.val.toUInt32) ∧
          n.val.toUInt32.toNat = n.val := by decide
    obtain ⟨hc, hlead, hn⟩ := hall ⟨ch.toNat / 262144 % 8, by omega⟩
    refine @isValidUtf8From_lead _ _ _ [ch.toNat / 4096 % 64, ch.toNat / 64 % 64, ch.toNat % 64] ch
      hc hlead rfl ?_ ?_ ?_ (by omega) s
    · simp only [List.mem_cons, List.not_mem_nil, or_false, forall_eq_or_imp, forall_eq]
      omega
    · rw [hn]
      dsimp only
      omega
    · rw [hn]
      simp only [List.foldl_cons, List.foldl_nil]
      omega

/-- The octets of a text are accepted. -/
theorem isValidUtf8_of_validUtf8 {s : Bytes} (h : ValidUtf8 s) : isValidUtf8 s = true := by
  obtain ⟨cs, rfl⟩ := h
  induction cs with
  | nil => rfl
  | cons c cs ih =>
    rw [utf8_cons, isValidUtf8, isValidUtf8From_char]
    exact ih

section

variable {icu : Converter} (hicu : ReturnsUtf8 icu)

include hicu

theorem isValidUtf8_toUtf8 (input charset : Bytes) :
    isValidUtf8 (toUtf8 icu input charset) = true := by
  unfold toUtf8
  split
  · rfl
  · dsimp only
    split
    · exact isValidUtf8_recoverUtf8 input
    · split
      · exact isValidUtf8_windows1252ToUtf8 input
      · cases hout : icu (cstr (trimLower charset)) input with
        | none => exact isValidUtf8_recoverUtf8 input
        | some output => exact hicu _ _ _ hout

theorem isValidUtf8_decodeOneWord {s decoded : Bytes} {consumed : Nat}
    (h : decodeOneWord icu s = some (decoded, consumed)) : isValidUtf8 decoded = true := by
  unfold decodeOneWord at h
  obtain ⟨charsetEnd, _, h⟩ := Option.bind_eq_some_iff.1 h
  obtain ⟨encEnd, _, h⟩ := Option.bind_eq_some_iff.1 h
  split at h
  · cases h
  · obtain ⟨textEnd, _, h⟩ := Option.bind_eq_some_iff.1 h
    dsimp only at h
    split at h
    · cases h
      exact isValidUtf8_toUtf8 hicu _ _
    · split at h
      · cases h
        exact isValidUtf8_toUtf8 hicu _ _
      · cases h

omit hicu in
/-- An encoded word ends with an octet of ASCII. -/
theorem decodeOneWord_split {s decoded : Bytes} {consumed : Nat}
    (h : decodeOneWord icu s = some (decoded, consumed)) :
    0 < consumed ∧ ∃ a, s = a ++ chr '=' :: s.drop consumed := by
  have hend : ∃ textEnd i, findSub s (str "?=") i = some textEnd ∧ consumed = textEnd + 2 := by
    unfold decodeOneWord at h
    obtain ⟨charsetEnd, _, h⟩ := Option.bind_eq_some_iff.1 h
    obtain ⟨encEnd, _, h⟩ := Option.bind_eq_some_iff.1 h
    split at h
    · cases h
    · obtain ⟨textEnd, hfind, h⟩ := Option.bind_eq_some_iff.1 h
      dsimp only at h
      split at h
      · cases h
        exact ⟨textEnd, _, hfind, rfl⟩
      · split at h
        · cases h
          exact ⟨textEnd, _, hfind, rfl⟩
        · cases h
  obtain ⟨textEnd, i, hfind, rfl⟩ := hend
  obtain ⟨_, _, rest, hrest⟩ := findSub_eq_some hfind (by decide)
  refine ⟨Nat.succ_pos _, s.take textEnd ++ [chr '?'], ?_⟩
  have hdrop : s.drop (textEnd + 2) = rest := by
    rw [← List.drop_drop, ← hrest]
    rfl
  conv_lhs => rw [← List.take_append_drop textEnd s, ← hrest]
  rw [hdrop, List.append_assoc]
  rfl

/-- Decoding words keeps a text UTF-8; `front` and the spaces held back stand before it. -/
theorem isValidUtf8_decodeWordsFrom {s front : Bytes} {skip pending : Nat} {encoded : Bool}
    (h : isValidUtf8 (front ++ List.replicate pending (chr ' ') ++ s.drop skip) = true) :
    isValidUtf8 (front ++ decodeWordsFrom icu skip pending encoded s) = true := by
  have hspaces (n : Nat) : ∀ c ∈ List.replicate n (chr ' '), c < 0x80 := by
    intro c hc
    rw [(List.mem_replicate.1 hc).2]
    decide
  induction s generalizing front skip pending encoded with
  | nil =>
    rw [List.drop_nil, List.append_nil] at h
    exact h
  | cons c cs ih =>
    unfold decodeWordsFrom
    cases skip with
    | succ skip => exact ih h
    | zero =>
      rw [List.drop_zero] at h
      dsimp only
      split
      · rename_i decoded consumed hword
        split at hword
        · rename_i hstart
          have hc : c = chr '=' := (List.cons_prefix_cons.1 (of_decide_eq_true hstart)).1.symm
          obtain ⟨hpos, a, ha⟩ := decodeOneWord_split hword
          have hdecoded := isValidUtf8_decodeOneWord hicu hword
          rw [isValidUtf8_append_start (by rw [hc]; rfl), Bool.and_eq_true, ha,
            isValidUtf8_append_ascii (by decide), Bool.and_eq_true] at h
          obtain ⟨hfront, _, hrest⟩ := h
          have hafter : isValidUtf8 (decodeWordsFrom icu (consumed - 1) 0 true cs) = true := by
            refine @ih [] _ _ _ ?_
            rw [← List.drop_succ_cons (a := c), Nat.sub_add_cancel hpos]
            exact hrest
          rw [← List.append_assoc, ← List.append_assoc]
          refine isValidUtf8_append (isValidUtf8_append ?_ hdecoded) hafter
          split
          · rw [List.append_nil, ← isValidUtf8_between (a := []) (by simp) (hspaces pending)]
            exact hfront
          · exact hfront
        · cases hword
      · split
        · rename_i hspace
          rw [isValidUtf8_append_ascii (ascii_of_isSpace hspace), Bool.and_eq_true] at h
          refine ih ?_
          rw [List.drop_zero, List.replicate_succ', ← List.append_assoc, List.append_assoc _ [_],
            List.singleton_append, isValidUtf8_append_ascii (by decide), h.1, h.2]
          rfl
        · rw [← List.append_assoc, List.append_cons]
          refine ih ?_
          rw [List.replicate_zero, List.append_nil, List.drop_zero, ← List.append_cons]
          exact h

theorem isValidUtf8_headerText (raw : Bytes) : isValidUtf8 (headerText icu raw) = true :=
  @isValidUtf8_decodeWordsFrom _ hicu _ [] _ _ _ (isValidUtf8_recoverUtf8 raw)

end

end Mime
end Imap2Pst
