import Imap2Pst.Imap.ShiftRuns
import Mathlib.Data.List.TakeWhile

/-!
# Imap.ModifiedUtf7

The mailbox names of RFC 3501: how a client writes one, and which shift runs are well formed.

* `encodeModifiedUtf7` — the encoding of a name.
* `Encodes`            — a shift run as the modified BASE64 of a text.
* `decode_encode`      — what is encoded is decoded.
* `keepsRuns_iff`      — the names of which every run is decoded or kept as it stands.
-/

namespace Imap2Pst
namespace Imap

open CxxStd

/-! ## Encoding -/

def alphabet : Bytes := str "ABCDEFGHIJKLMNOPQRSTUVWXYZabcdefghijklmnopqrstuvwxyz0123456789+,"

def base64Char (v : Nat) : Byte := alphabet.getD v 0

/-- Binary digits in groups of six, with zeros at the end where digits are missing. -/
def sextets : List Nat → List Nat
  | [] => []
  | [a] => [fromDigits 2 [a, 0, 0, 0, 0, 0]]
  | [a, b] => [fromDigits 2 [a, b, 0, 0, 0, 0]]
  | [a, b, c] => [fromDigits 2 [a, b, c, 0, 0, 0]]
  | [a, b, c, d] => [fromDigits 2 [a, b, c, d, 0, 0]]
  | [a, b, c, d, e] => [fromDigits 2 [a, b, c, d, e, 0]]
  | a :: b :: c :: d :: e :: f :: ds => fromDigits 2 [a, b, c, d, e, f] :: sextets ds

/-- Modified BASE64 of the UTF-16BE form of a text. -/
def encodeRun (cs : List Char) : Bytes :=
  (sextets (unitBits (cs.flatMap utf16))).map base64Char

def printable (c : Char) : Bool := 0x20 ≤ c.toNat && c.toNat ≤ 0x7E

/-- The shift run for the characters gathered so far. -/
def flushRun (run : List Char) : Bytes := if run = [] then [] else 38 :: (encodeRun run ++ [45])

def encodeFrom (run : List Char) : List Char → Bytes
  | [] => flushRun run
  | c :: cs =>
    if printable c then
      flushRun run ++ (if c = '&' then [38, 45] else [c.toNat.toUInt8]) ++ encodeFrom [] cs
    else encodeFrom (run ++ [c]) cs

def encodeModifiedUtf7 (cs : List Char) : Bytes := encodeFrom [] cs

example : encodeModifiedUtf7 "Entw&ürfe".toList = str "Entw&-&APw-rfe" := by decide

theorem modifiedBase64Value_iff {c : Byte} {v : Nat} :
    modifiedBase64Value c = some v ↔ v < 64 ∧ base64Char v = c := by
  constructor
  · intro h
    have hc : (modifiedBase64Value c).all fun v => base64Char v = c :=
      forall_byte (p := fun c => (modifiedBase64Value c).all fun v => base64Char v = c)
        (by decide +kernel) c
    simp only [h, Option.all_some, decide_eq_true_eq] at hc
    exact ⟨modifiedBase64Value_lt h, hc⟩
  · rintro ⟨hv, rfl⟩
    have hall : ∀ i : Fin 64, modifiedBase64Value (base64Char i) = some i.val := by
      decide +kernel
    exact hall ⟨v, hv⟩

/-- The octets are the modified BASE64 of a text that is not empty; fewer than six digits are left
over. -/
structure Encodes (octets : Bytes) (cs : List Char) : Prop where
  nonempty : cs ≠ []
  bits : ∃ values pad, octets = values.map base64Char ∧ (∀ v ∈ values, v < 64) ∧
    sextetBits values = unitBits (cs.flatMap utf16) ++ pad ∧ pad.length < 6

theorem map_modifiedBase64Value {values : List Nat} (h : ∀ v ∈ values, v < 64) :
    (values.map base64Char).map modifiedBase64Value = values.map some := by
  rw [List.map_map]
  exact List.map_congr_left fun v hv => modifiedBase64Value_iff.2 ⟨h v hv, rfl⟩

theorem sextet_group {ds : List Nat} (hlen : ds.length = 6) (h : ∀ d ∈ ds, d < 2) :
    fromDigits 2 ds < 64 ∧ fixedDigits 2 6 (fromDigits 2 ds) = ds := by
  have hlt := fromDigits_lt h
  have hdigits := fixedDigits_fromDigits h
  rw [hlen] at hlt hdigits
  exact ⟨hlt, hdigits⟩

/-- The last group, filled up with zeros. -/
theorem sextet_last {ds zeros : List Nat} (hlen : (ds ++ zeros).length = 6) (hne : ds ≠ [])
    (hzeros : ∀ d ∈ zeros, d < 2) (h : ∀ d ∈ ds, d < 2) :
    (∀ v ∈ [fromDigits 2 (ds ++ zeros)], v < 64) ∧
      ∃ pad, sextetBits [fromDigits 2 (ds ++ zeros)] = ds ++ pad ∧ pad.length < 6 := by
  obtain ⟨hlt, hdigits⟩ := sextet_group hlen (List.forall_mem_append.2 ⟨h, hzeros⟩)
  refine ⟨fun v hv => by rwa [List.mem_singleton.1 hv], zeros, ?_, ?_⟩
  · rw [sextetBits, List.flatMap_singleton, hdigits]
  · have hpos := List.length_pos_iff.2 hne
    rw [List.length_append] at hlen
    omega

theorem sextetBits_sextets {ds : List Nat} (h : ∀ d ∈ ds, d < 2) :
    (∀ v ∈ sextets ds, v < 64) ∧ ∃ pad, sextetBits (sextets ds) = ds ++ pad ∧ pad.length < 6 := by
  have hone : ∀ n, ∀ d ∈ List.replicate n 0, d < 2 := fun n d hd => by
    rw [List.eq_of_mem_replicate hd]
    decide
  fun_induction sextets ds with
  | case1 => exact ⟨fun v hv => absurd hv List.not_mem_nil, [], rfl, by decide⟩
  | case2 a => exact sextet_last rfl (List.cons_ne_nil _ _) (hone 5) h
  | case3 a b => exact sextet_last rfl (List.cons_ne_nil _ _) (hone 4) h
  | case4 a b c => exact sextet_last rfl (List.cons_ne_nil _ _) (hone 3) h
  | case5 a b c d => exact sextet_last rfl (List.cons_ne_nil _ _) (hone 2) h
  | case6 a b c d e => exact sextet_last rfl (List.cons_ne_nil _ _) (hone 1) h
  | case7 a b c d e f ds ih =>
    have hds : ∀ x ∈ [a, b, c, d, e, f] ++ ds, x < 2 := h
    rw [List.forall_mem_append] at hds
    obtain ⟨hlt, hdigits⟩ := sextet_group rfl hds.1
    obtain ⟨hvalues, pad, hpad, hlen⟩ := ih hds.2
    refine ⟨List.forall_mem_cons.2 ⟨hlt, hvalues⟩, pad, ?_, hlen⟩
    rw [sextetBits, List.flatMap_cons, hdigits, ← sextetBits, hpad]
    rfl

theorem unitBits_lt (units : List Nat) : ∀ d ∈ unitBits units, d < 2 := by
  intro d hd
  obtain ⟨u, -, hd⟩ := List.mem_flatMap.1 hd
  exact mem_fixedDigits_lt (by decide) hd

theorem encodes_encodeRun {cs : List Char} (h : cs ≠ []) : Encodes (encodeRun cs) cs := by
  obtain ⟨hvalues, pad, hpad, hlen⟩ := sextetBits_sextets (unitBits_lt (cs.flatMap utf16))
  exact ⟨h, _, pad, rfl, hvalues, hpad, hlen⟩

/-! ## Decoding -/

theorem appendUtf8_toNat (c : Char) : appendUtf8 c.toNat = String.utf8EncodeChar c := by
  have hrange : c.toNat < 0x110000 := by
    obtain h | ⟨-, h⟩ := char_range c <;> omega
  have htail (n : Nat) : 0x80 + n = n + 0x80 := Nat.add_comm _ _
  unfold appendUtf8 String.utf8EncodeChar
  rw [Char.toNat_val]
  generalize c.toNat = n at *
  by_cases h1 : n < 0x80
  · rw [if_pos h1, if_pos (Nat.le_of_lt_succ h1)]
  by_cases h2 : n < 0x800
  · have hlead : 0xC0 + n / 64 = n / 64 % 0x20 + 0xC0 := by omega
    rw [if_neg h1, if_pos h2, if_neg (by omega), if_pos (Nat.le_of_lt_succ h2), hlead, htail]
  by_cases h3 : n < 0x10000
  · have hlead : 0xE0 + n / 4096 = n / 4096 % 0x10 + 0xE0 := by omega
    rw [if_neg h1, if_neg h2, if_pos h3, if_neg (by omega), if_neg (by omega),
      if_pos (Nat.le_of_lt_succ h3), hlead, htail, htail]
  · have hlead : 0xF0 + n / 262144 = n / 262144 % 8 + 0xF0 := by omega
    rw [if_neg h1, if_neg h2, if_neg h3, if_neg (by omega), if_neg (by omega), if_neg (by omega),
      hlead, htail, htail, htail]

/-- The units of a character add its UTF-8 form, whatever is pending. -/
theorem unitsOut_utf16 (high : Nat) (c : Char) (units : List Nat) :
    unitsOut high (utf16 c ++ units) = String.utf8EncodeChar c ++ unitsOut 0 units := by
  have hrange := char_range c
  rw [← appendUtf8_toNat]
  unfold utf16
  split
  · have hhigh : ¬ isHigh c.toNat := by unfold isHigh; omega
    have hlow : ¬ (0xDC00 ≤ c.toNat ∧ c.toNat ≤ 0xDFFF ∧ high ≠ 0) := by omega
    rw [List.singleton_append, unitsOut, unitOut, if_neg hhigh, if_neg hlow, nextHigh, if_neg hhigh]
  · rename_i hlarge
    obtain ⟨n, hn, hlt⟩ : ∃ n, c.toNat = 0x10000 + n ∧ n < 0x100000 :=
      ⟨c.toNat - 0x10000, by omega, by omega⟩
    have hsub : c.toNat - 0x10000 = n := by omega
    have hhigh : isHigh (0xD800 + n / 0x400) := by unfold isHigh; omega
    have hnext : nextHigh (0xD800 + n / 0x400) = 0xD800 + n / 0x400 := if_pos hhigh
    have hnot : ¬ isHigh (0xDC00 + n % 0x400) := by unfold isHigh; omega
    have hlow : 0xDC00 ≤ 0xDC00 + n % 0x400 ∧ 0xDC00 + n % 0x400 ≤ 0xDFFF ∧
        0xD800 + n / 0x400 ≠ 0 := by omega
    have hpair : 0x10000 + (0xD800 + n / 0x400 - 0xD800) * 1024 + (0xDC00 + n % 0x400 - 0xDC00) =
        c.toNat := by omega
    rw [hsub, List.cons_append, List.singleton_append, unitsOut, unitOut, if_pos hhigh, hnext,
      unitsOut, unitOut, if_neg hnot, if_pos hlow, hpair, nextHigh, if_neg hnot, List.nil_append]

theorem unitsOut_text (cs : List Char) : unitsOut 0 (cs.flatMap utf16) = utf8 cs := by
  induction cs with
  | nil => rfl
  | cons c cs ih => rw [List.flatMap_cons, unitsOut_utf16, ih, utf8_cons]

theorem decodeRun_of_encodes {octets : Bytes} {cs : List Char} (h : Encodes octets cs) :
    decodeRun { out := [] } octets = (false, utf8 cs) := by
  obtain ⟨values, pad, rfl, hvalues, hbits, hpad⟩ := h.bits
  have hunits : ∀ u ∈ cs.flatMap utf16, u < 2 ^ 16 := by
    intro u hu
    obtain ⟨c, -, hu⟩ := List.mem_flatMap.1 hu
    exact utf16_lt hu
  have hnone : ∀ c ∈ ([] : Bytes).head?, modifiedBase64Value c = none := by simp
  have hrun := decodeRun_spec { out := [] } (map_modifiedBase64Value hvalues) hnone (by decide)
    hbits (by omega) hunits
  rw [List.append_nil] at hrun
  rw [hrun, ← unitsOut_text]
  rfl

theorem Encodes.octets_ne_nil {octets : Bytes} {cs : List Char} (h : Encodes octets cs) :
    octets ≠ [] := by
  rintro rfl
  have hrun := decodeRun_of_encodes h
  exact utf8_ne_nil h.nonempty (congrArg Prod.snd hrun).symm

theorem Encodes.dash_not_mem {octets : Bytes} {cs : List Char} (h : Encodes octets cs) :
    (45 : Byte) ∉ octets := by
  obtain ⟨values, pad, rfl, hvalues, -⟩ := h.bits
  intro hmem
  obtain ⟨v, hv, heq⟩ := List.mem_map.1 hmem
  have hdash := modifiedBase64Value_iff.2 ⟨hvalues v hv, heq⟩
  have hnone : modifiedBase64Value 45 = none := by decide
  rw [hnone] at hdash
  cases hdash

theorem decode_flushRun (run : List Char) (rest : Bytes) :
    decodeModifiedUtf7 (flushRun run ++ rest) = utf8 run ++ decodeModifiedUtf7 rest := by
  by_cases hrun : run = []
  · rw [hrun]
    rfl
  · have hencodes := encodes_encodeRun hrun
    have htext : flushRun run ++ rest = 38 :: (encodeRun run ++ 45 :: rest) := by
      rw [flushRun, if_neg hrun]
      simp
    rw [htext, decodeModifiedUtf7_eq, pieces_closed hencodes.octets_ne_nil hencodes.dash_not_mem,
      List.flatMap_cons, ← decodeModifiedUtf7_eq, Piece.decoded, decodeRun_of_encodes hencodes]
    rfl

theorem utf8_printable {c : Char} (h : printable c = true) : utf8 [c] = [c.toNat.toUInt8] := by
  simp only [printable, Bool.and_eq_true, decide_eq_true_eq] at h
  rw [utf8_cons, ← appendUtf8_toNat, appendUtf8, if_pos (by omega)]
  rfl

theorem octet_ne_ampersand {c : Char} (h : printable c = true) (hc : c ≠ '&') :
    c.toNat.toUInt8 ≠ 38 := by
  intro heq
  simp only [printable, Bool.and_eq_true, decide_eq_true_eq] at h
  have hnat : c.toNat % 256 = 38 := congrArg UInt8.toNat heq
  refine hc (Char.toNat_inj.1 ?_)
  change c.toNat = 38
  omega

theorem decode_printable {c : Char} (h : printable c = true) (rest : Bytes) :
    decodeModifiedUtf7 ((if c = '&' then [38, 45] else [c.toNat.toUInt8]) ++ rest) =
      utf8 [c] ++ decodeModifiedUtf7 rest := by
  rw [utf8_printable h]
  split
  · rename_i hamp
    rw [hamp, decodeModifiedUtf7_eq, List.cons_append, List.singleton_append, pieces_ampersand,
      List.flatMap_cons, ← decodeModifiedUtf7_eq]
    rfl
  · rename_i hamp
    rw [List.singleton_append, decodeModifiedUtf7_eq, pieces_plain (octet_ne_ampersand h hamp),
      List.flatMap_cons, ← decodeModifiedUtf7_eq]
    rfl

theorem decode_encodeFrom (cs run : List Char) :
    decodeModifiedUtf7 (encodeFrom run cs) = utf8 (run ++ cs) := by
  induction cs generalizing run with
  | nil =>
    have h := decode_flushRun run []
    rw [List.append_nil] at h
    rw [encodeFrom, h, List.append_nil]
    exact List.append_nil _
  | cons c cs ih =>
    rw [encodeFrom]
    split
    · rename_i hprintable
      rw [List.append_assoc, decode_flushRun, decode_printable hprintable, ih [],
        List.nil_append, ← utf8_append, ← utf8_append, List.singleton_append]
    · rw [ih, List.append_assoc, List.singleton_append]

/-- What RFC 3501 encodes is decoded, so the encodings of two names are decoded to two names. -/
theorem decode_encode :
    (∀ cs, decodeModifiedUtf7 (encodeModifiedUtf7 cs) = utf8 cs) ∧
      ∀ cs ds, encodeModifiedUtf7 cs ≠ encodeModifiedUtf7 ds →
        decodeModifiedUtf7 (encodeModifiedUtf7 cs) ≠ decodeModifiedUtf7 (encodeModifiedUtf7 ds) := by
  have hdecode (cs : List Char) : decodeModifiedUtf7 (encodeModifiedUtf7 cs) = utf8 cs :=
    decode_encodeFrom cs []
  refine ⟨hdecode, fun cs ds hne heq => hne ?_⟩
  rw [hdecode, hdecode] at heq
  rw [utf8_inj heq]

/-! ## Runs that are kept -/

theorem decode_piecewise (name : Bytes) :
    decodeModifiedUtf7 name = (pieces name).flatMap fun p => decodeModifiedUtf7 p.text := by
  rw [decodeModifiedUtf7_eq]
  refine List.flatMap_congr fun p hp => ?_
  cases p with
  | plain c =>
    rw [decodeModifiedUtf7_eq, Piece.text, pieces_plain (ne_of_plain_mem_pieces hp).1, pieces]
    rfl
  | ampersand => rfl
  | run octets closed => exact (decode_run hp).symm

/-- Each shift run is decoded when it encodes a text, and is kept as it stands when it does not;
so an ASCII name stays UTF-8, and no name disappears. -/
structure KeepsRuns (name : Bytes) : Prop where
  piecewise : decodeModifiedUtf7 name = (pieces name).flatMap fun p => decodeModifiedUtf7 p.text
  decoded : ∀ octets closed, .run octets closed ∈ pieces name → ∀ cs, Encodes octets cs →
    decodeModifiedUtf7 (Piece.run octets closed).text = utf8 cs
  kept : ∀ octets closed, .run octets closed ∈ pieces name → (∀ cs, ¬ Encodes octets cs) →
    decodeModifiedUtf7 (Piece.run octets closed).text = (Piece.run octets closed).text
  valid : (∀ c ∈ name, c < 0x80) → ValidUtf8 (decodeModifiedUtf7 name)
  nonempty : name ≠ [] → decodeModifiedUtf7 name ≠ []

/-- The run has a character outside the alphabet, and the characters before the first one complete
no unit but high surrogates. -/
def FailsAtOnce (octets : Bytes) : Prop :=
  ∃ values c rest units pad, octets = values.map base64Char ++ c :: rest ∧
    (∀ v ∈ values, v < 64) ∧ c ∉ alphabet ∧ sextetBits values = unitBits units ++ pad ∧
    pad.length < 16 ∧ ∀ u ∈ units, isHigh u

theorem modifiedBase64Value_eq_none_iff {c : Byte} :
    modifiedBase64Value c = none ↔ c ∉ alphabet := by
  have hvalues : alphabet.all (fun c => (modifiedBase64Value c).isSome) = true := by decide +kernel
  have hletters : ∀ c : Byte, (modifiedBase64Value c).isSome = true → c ∈ alphabet :=
    forall_byte (by decide +kernel)
  rw [← Option.not_isSome_iff_eq_none, not_iff_not]
  exact ⟨hletters c, List.all_eq_true.1 hvalues c⟩

theorem alphabet_ascii {c : Byte} (h : c ∈ alphabet) : c < 0x80 := by
  have hall : alphabet.all (· < 0x80) = true := by decide
  exact of_decide_eq_true (List.all_eq_true.1 hall c h)

theorem appendUtf8_ne_nil (cp : Nat) : appendUtf8 cp ≠ [] := by
  unfold appendUtf8
  split
  · exact List.cons_ne_nil _ _
  · split
    · exact List.cons_ne_nil _ _
    · split <;> exact List.cons_ne_nil _ _

/-- A code point written in ASCII takes one octet. -/
theorem appendUtf8_ascii {cp : Nat} (h : ∀ b ∈ appendUtf8 cp, b < 0x80) :
    (appendUtf8 cp).length = 1 := by
  by_cases hcp : cp < 0x80
  · rw [appendUtf8, if_pos hcp]
    rfl
  · have hlast : (0x80 + cp % 64).toUInt8 ∈ appendUtf8 cp := by
      unfold appendUtf8
      rw [if_neg hcp]
      split
      · simp
      · split <;> simp
    have hlt := UInt8.lt_iff_toNat_lt.1 (h _ hlast)
    have hnat : (0x80 + cp % 64).toUInt8.toNat = 0x80 + cp % 64 := by
      rw [UInt8.toNat_ofNat']
      omega
    rw [hnat] at hlt
    exact absurd hlt (by simp)

theorem unitsOut_eq_nil_iff {high : Nat} {units : List Nat} :
    unitsOut high units = [] ↔ ∀ u ∈ units, isHigh u := by
  induction units generalizing high with
  | nil => simp [unitsOut]
  | cons u units ih =>
    rw [unitsOut, List.append_eq_nil_iff, ih, List.forall_mem_cons]
    refine and_congr_left fun _ => ?_
    unfold unitOut
    by_cases h : isHigh u
    · simp [h]
    · rw [if_neg h]
      refine iff_of_false ?_ h
      split <;> exact appendUtf8_ne_nil _

theorem unitsOut_ascii {high : Nat} {units : List Nat} (h : ∀ b ∈ unitsOut high units, b < 0x80) :
    (unitsOut high units).length ≤ units.length := by
  induction units generalizing high with
  | nil => exact le_refl _
  | cons u units ih =>
    rw [unitsOut, List.forall_mem_append] at h
    have hrest := ih h.2
    have hfirst : (unitOut high u).length ≤ 1 := by
      have hu := h.1
      unfold unitOut at hu ⊢
      by_cases hhigh : isHigh u
      · rw [if_pos hhigh]
        exact Nat.zero_le _
      · rw [if_neg hhigh] at hu ⊢
        generalize 0x10000 + (high - 0xD800) * 1024 + (u - 0xDC00) = pair at *
        split
        · rename_i hpair
          rw [if_pos hpair] at hu
          exact (appendUtf8_ascii hu).le
        · rename_i hpair
          rw [if_neg hpair] at hu
          exact (appendUtf8_ascii hu).le
    rw [unitsOut, List.length_append, List.length_cons]
    omega

theorem eq_map_base64Char {cs : Bytes} {values : List Nat}
    (h : cs.map modifiedBase64Value = values.map some) :
    (∀ v ∈ values, v < 64) ∧ cs = values.map base64Char := by
  induction cs generalizing values with
  | nil =>
    cases values with
    | nil => exact ⟨fun v hv => absurd hv List.not_mem_nil, rfl⟩
    | cons v values => cases h
  | cons c cs ih =>
    cases values with
    | nil => cases h
    | cons v values =>
      rw [List.map_cons, List.map_cons, List.cons.injEq] at h
      obtain ⟨hlt, hchar⟩ := modifiedBase64Value_iff.1 h.1
      obtain ⟨hvalues, hcs⟩ := ih h.2
      exact ⟨List.forall_mem_cons.2 ⟨hlt, hvalues⟩, by rw [List.map_cons, hchar, hcs]⟩

/-- A run, read up to its first character outside the alphabet. -/
theorem run_split (octets : Bytes) :
    ∃ values rest units pad, octets = values.map base64Char ++ rest ∧ (∀ v ∈ values, v < 64) ∧
      (∀ c ∈ rest.head?, c ∉ alphabet) ∧ sextetBits values = unitBits units ++ pad ∧
      pad.length < 16 ∧ decodeRun { out := [] } octets = (!rest.isEmpty, unitsOut 0 units) := by
  have hgood : ∀ c ∈ octets.takeWhile (· ∈ alphabet), (modifiedBase64Value c).isSome := by
    intro c hc
    have hmem : c ∈ alphabet := by simpa using List.mem_takeWhile_imp hc
    exact Option.isSome_iff_ne_none.2 fun hnone => modifiedBase64Value_eq_none_iff.1 hnone hmem
  obtain ⟨values, units, pad, hvalues, hbits, hpad, hunits⟩ := exists_units hgood
  have hrest : ∀ c ∈ (octets.dropWhile (· ∈ alphabet)).head?, c ∉ alphabet := by
    intro c hc
    have hhead := List.head?_dropWhile_not (· ∈ alphabet) octets
    rw [Option.mem_def.1 hc] at hhead
    simpa using hhead
  obtain ⟨hlt, hmap⟩ := eq_map_base64Char hvalues
  refine ⟨values, octets.dropWhile (· ∈ alphabet), units, pad, ?_, hlt, hrest, hbits, hpad, ?_⟩
  · rw [← hmap, List.takeWhile_append_dropWhile]
  · have hrun := decodeRun_spec { out := [] } hvalues
      (fun c hc => modifiedBase64Value_eq_none_iff.2 (hrest c hc)) (by decide) hbits hpad hunits
    rw [List.takeWhile_append_dropWhile] at hrun
    exact hrun

theorem base64Char_mem {v : Nat} (h : v < 64) : base64Char v ∈ alphabet := by
  have hall : ∀ i : Fin 64, base64Char i ∈ alphabet := by decide +kernel
  exact hall ⟨v, h⟩

theorem Encodes.mem_alphabet {octets : Bytes} {cs : List Char} (h : Encodes octets cs) {c : Byte}
    (hc : c ∈ octets) : c ∈ alphabet := by
  obtain ⟨values, -, rfl, hvalues, -⟩ := h.bits
  obtain ⟨v, hv, rfl⟩ := List.mem_map.1 hc
  exact base64Char_mem (hvalues v hv)

/-- A run that fails before anything is put out is kept. -/
theorem decoded_of_failsAtOnce {octets : Bytes} {closed : Bool} (h : FailsAtOnce octets) :
    (Piece.run octets closed).decoded = (Piece.run octets closed).text := by
  obtain ⟨values, c, rest, units, pad, rfl, hvalues, hc, hbits, hpad, hunits⟩ := h
  have hlt : ∀ u ∈ units, u < 2 ^ 16 := fun u hu => Nat.lt_of_le_of_lt (hunits u hu).2 (by decide)
  have hnone : ∀ x ∈ (c :: rest).head?, modifiedBase64Value x = none := by
    rintro x hx
    cases hx
    exact modifiedBase64Value_eq_none_iff.2 hc
  have hrun := decodeRun_spec { out := [] } (map_modifiedBase64Value hvalues) hnone (by decide)
    hbits hpad hlt
  rw [Piece.decoded, hrun, unitsOut_eq_nil_iff.2 hunits]
  rfl

/-- A run of the alphabet alone is never put out as it stands. -/
theorem decoded_ne_text {values units pad : List Nat} {closed : Bool}
    (hvalues : ∀ v ∈ values, v < 64) (hbits : sextetBits values = unitBits units ++ pad) :
    unitsOut 0 units ≠ (Piece.run (values.map base64Char) closed).text := by
  intro heq
  have hascii : ∀ b ∈ unitsOut 0 units, b < 0x80 := by
    rw [heq]
    intro b hb
    rcases List.mem_cons.1 hb with rfl | hb
    · decide
    rcases List.mem_append.1 hb with hb | hb
    · obtain ⟨v, hv, rfl⟩ := List.mem_map.1 hb
      exact alphabet_ascii (base64Char_mem (hvalues v hv))
    · split at hb
      · rw [List.mem_singleton.1 hb]
        decide
      · cases hb
  have hle := unitsOut_ascii hascii
  have hlong := congrArg List.length heq
  have hcount := congrArg List.length hbits
  rw [sextetBits, unitBits, List.length_append, length_flatMap_fixedDigits,
    length_flatMap_fixedDigits] at hcount
  simp only [Piece.text, List.length_append, List.length_cons, List.length_map] at hlong
  omega

theorem encodes_or_failsAtOnce_of_kept {octets : Bytes} {closed : Bool}
    (h : (∀ cs, ¬ Encodes octets cs) →
      (Piece.run octets closed).decoded = (Piece.run octets closed).text) :
    (∃ cs, Encodes octets cs) ∨ FailsAtOnce octets := by
  by_cases hencodes : ∃ cs, Encodes octets cs
  · exact .inl hencodes
  · have hkept := h (not_exists.1 hencodes)
    obtain ⟨values, rest, units, pad, rfl, hvalues, hrest, hbits, hpad, hrun⟩ := run_split octets
    rw [Piece.decoded, hrun] at hkept
    cases rest with
    | nil =>
      rw [List.append_nil] at hkept
      exact absurd hkept (decoded_ne_text hvalues hbits)
    | cons c rest =>
      have hnone : unitsOut 0 units = [] := List.append_left_eq_self.1 hkept
      exact .inr ⟨values, c, rest, units, pad, rfl, hvalues, hrest c rfl, hbits, hpad,
        unitsOut_eq_nil_iff.1 hnone⟩

theorem decoded_cases {octets : Bytes} (closed : Bool)
    (h : (∃ cs, Encodes octets cs) ∨ FailsAtOnce octets) :
    (∃ cs, Encodes octets cs ∧ (Piece.run octets closed).decoded = utf8 cs) ∨
      (FailsAtOnce octets ∧
        (Piece.run octets closed).decoded = (Piece.run octets closed).text) := by
  obtain ⟨cs, hcs⟩ | hfails := h
  · exact .inl ⟨cs, hcs, by rw [Piece.decoded, decodeRun_of_encodes hcs]; rfl⟩
  · exact .inr ⟨hfails, decoded_of_failsAtOnce hfails⟩

theorem validUtf8_decoded {name : Bytes} {p : Piece} (hp : p ∈ pieces name)
    (hascii : ∀ c ∈ name, c < 0x80)
    (h : ∀ octets closed, p = .run octets closed →
      (∃ cs, Encodes octets cs) ∨ FailsAtOnce octets) : ValidUtf8 p.decoded := by
  cases p with
  | plain c =>
    have hc := hascii c (ne_of_plain_mem_pieces hp).2
    exact validUtf8_of_ascii fun x hx => List.mem_singleton.1 hx ▸ hc
  | ampersand =>
    have hc : (38 : Byte) < 0x80 := by decide
    exact validUtf8_of_ascii fun x hx => List.mem_singleton.1 hx ▸ hc
  | run octets closed =>
    obtain ⟨cs, -, hdecoded⟩ | ⟨-, hkept⟩ := decoded_cases closed (h octets closed rfl)
    · exact ⟨cs, hdecoded⟩
    · rw [hkept]
      refine validUtf8_of_ascii fun x hx => hascii x ?_
      rw [← pieces_text name]
      exact List.mem_flatMap.2 ⟨_, hp, hx⟩

theorem decoded_ne_nil {p : Piece}
    (h : ∀ octets closed, p = .run octets closed →
      (∃ cs, Encodes octets cs) ∨ FailsAtOnce octets) : p.decoded ≠ [] := by
  cases p with
  | plain c => exact List.cons_ne_nil _ _
  | ampersand => exact List.cons_ne_nil _ _
  | run octets closed =>
    obtain ⟨cs, hcs, hdecoded⟩ | ⟨-, hkept⟩ := decoded_cases closed (h octets closed rfl)
    · rw [hdecoded]
      exact utf8_ne_nil hcs.nonempty
    · rw [hkept]
      exact List.cons_ne_nil _ _

/-- The runs of a name are decoded or kept exactly when none of them fails after something of it
has been put out. -/
theorem keepsRuns_iff {name : Bytes} :
    KeepsRuns name ↔ ∀ octets closed, .run octets closed ∈ pieces name →
      (∃ cs, Encodes octets cs) ∨ FailsAtOnce octets := by
  constructor
  · intro h octets closed hrun
    refine @encodes_or_failsAtOnce_of_kept octets closed fun hnot => ?_
    rw [← decode_run hrun]
    exact h.kept octets closed hrun hnot
  · intro h
    have hpiece {p : Piece} (hp : p ∈ pieces name) (octets : Bytes) (closed : Bool)
        (heq : p = .run octets closed) : (∃ cs, Encodes octets cs) ∨ FailsAtOnce octets :=
      h octets closed (heq ▸ hp)
    refine ⟨decode_piecewise name, fun octets closed hrun cs hcs => ?_,
      fun octets closed hrun hnot => ?_, fun hascii => ?_, fun hne hnil => ?_⟩
    · rw [decode_run hrun, Piece.decoded, decodeRun_of_encodes hcs]
      rfl
    · obtain ⟨cs, hcs, -⟩ | ⟨-, hkept⟩ := decoded_cases closed (h octets closed hrun)
      · exact absurd hcs (hnot cs)
      · rw [decode_run hrun, hkept]
    · rw [decodeModifiedUtf7_eq]
      exact ValidUtf8.flatMap fun p hp => validUtf8_decoded hp hascii (hpiece hp)
    · rw [decodeModifiedUtf7_eq, List.flatMap_eq_nil_iff] at hnil
      have htext := pieces_text name
      obtain ⟨p, hp⟩ : ∃ p, p ∈ pieces name := by
        refine List.exists_mem_of_ne_nil _ fun hempty => hne ?_
        rw [← htext, hempty]
        rfl
      exact decoded_ne_nil (hpiece hp) (hnil p hp)

/-- `"&AGE!-"` becomes `"a&AGE!-"`, and nothing is left of `"&"`. -/
theorem run_not_kept :
    decodeModifiedUtf7 (str "&AGE!-") = str "a&AGE!-" ∧ decodeModifiedUtf7 (str "&") = [] ∧
      ¬ KeepsRuns (str "&AGE!-") ∧ ¬ KeepsRuns (str "&") := by
  have hempty : decodeModifiedUtf7 (str "&") = [] := by decide
  have hdoubled : decodeModifiedUtf7 (str "&AGE!-") = str "a&AGE!-" := by decide
  refine ⟨hdoubled, hempty, fun h => ?_, fun h => ?_⟩
  · have hname : str "&AGE!-" = 38 :: (str "AGE!" ++ 45 :: []) := by decide
    have hpieces : pieces (str "&AGE!-") = .run (str "AGE!") true :: pieces [] := by
      rw [hname]
      exact pieces_closed (by decide) (by decide) []
    have hbad : (33 : Byte) ∉ alphabet := by decide
    have hkept := h.kept (str "AGE!") true (hpieces ▸ List.mem_cons_self) fun cs hcs =>
      hbad (hcs.mem_alphabet (by decide))
    have htext : (Piece.run (str "AGE!") true).text = str "&AGE!-" := by decide
    rw [htext, hdoubled] at hkept
    exact absurd hkept (by decide)
  · exact h.nonempty (by decide) hempty

end Imap
end Imap2Pst
