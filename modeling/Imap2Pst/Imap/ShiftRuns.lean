import Imap2Pst.Imap.MailboxName
import Imap2Pst.Std.Regroup
import Imap2Pst.Std.Unicode
import Mathlib.Tactic.Ring

/-!
# Imap.ShiftRuns

What `decodeModifiedUtf7` makes of a mailbox name, shift run by shift run.

* `decodeRun_spec` — a run is decoded unit by unit, up to its first bad character.
* `pieces`         — a name cut up into shift runs and what stands between them.
* `decode_eq`      — each piece is decoded on its own.
-/

namespace Imap2Pst
namespace Imap

open CxxStd

/-! ## Units -/

/-- The binary digits of characters of the alphabet, six each. -/
def sextetBits (values : List Nat) : List Nat := values.flatMap (fixedDigits 2 6)

/-- The binary digits of UTF-16 units. -/
def unitBits (units : List Nat) : List Nat := units.flatMap (fixedDigits 2 16)

theorem length_flatMap_fixedDigits (w : Nat) (ns : List Nat) :
    (ns.flatMap (fixedDigits 2 w)).length = w * ns.length := by
  induction ns with
  | nil => rfl
  | cons n ns ih =>
    rw [List.flatMap_cons, List.length_append, fixedDigits_length, ih, List.length_cons]
    ring

def isHigh (unit : Nat) : Prop := 0xD800 ≤ unit ∧ unit ≤ 0xDBFF

instance (unit : Nat) : Decidable (isHigh unit) := inferInstanceAs (Decidable (_ ∧ _))

/-- The pending surrogate after a unit. -/
def nextHigh (unit : Nat) : Nat := if isHigh unit then unit else 0

/-- What a unit adds to the output while `high` is pending. -/
def unitOut (high unit : Nat) : Bytes :=
  if isHigh unit then []
  else if 0xDC00 ≤ unit ∧ unit ≤ 0xDFFF ∧ high ≠ 0 then
    appendUtf8 (0x10000 + (high - 0xD800) * 1024 + (unit - 0xDC00))
  else appendUtf8 unit

def unitsOut (high : Nat) : List Nat → Bytes
  | [] => []
  | unit :: units => unitOut high unit ++ unitsOut (nextHigh unit) units

theorem ShiftRun.unit_eq (r : ShiftRun) (unit : Nat) :
    r.unit unit = { r with out := r.out ++ unitOut r.high unit, high := nextHigh unit } := by
  rw [ShiftRun.unit, unitOut, nextHigh]
  by_cases h : isHigh unit
  · have hrange : 0xD800 ≤ unit ∧ unit ≤ 0xDBFF := h
    rw [if_pos hrange, if_pos h, if_pos h, List.append_nil]
  · have hrange : ¬ (0xD800 ≤ unit ∧ unit ≤ 0xDBFF) := h
    rw [if_neg hrange, if_neg h, if_neg h]
    split <;> rfl

theorem modifiedBase64Value_lt {c : Byte} {v : Nat} (h : modifiedBase64Value c = some v) :
    v < 64 := by
  unfold modifiedBase64Value at h
  simp only [Bool.and_eq_true, decide_eq_true_eq, UInt8.le_iff_toNat_le, UInt8.toNat_ofNat] at h
  split at h
  · cases h
    omega
  · split at h
    · cases h
      omega
    · split at h
      · cases h
        omega
      · split at h
        · cases h
          decide
        · split at h
          · cases h
            decide
          · cases h

/-- Six more digits in the accumulator. -/
theorem accumulate {bits nbits v : Nat} (hv : v < 64) (hn : nbits < 16) :
    fixedDigits 2 (nbits + 6) ((bits * 64 + v) % 2 ^ 32) =
      fixedDigits 2 nbits bits ++ fixedDigits 2 6 v := by
  rw [fixedDigits_mod 32 _ (by omega)]
  exact fixedDigits_concat nbits bits hv

/-- A run is read unit by unit; what is left of its digits is dropped. -/
theorem decodeRun_spec {cs rest : Bytes} {values units pad : List Nat} (r : ShiftRun)
    (hvalues : cs.map modifiedBase64Value = values.map some)
    (hrest : ∀ c ∈ rest.head?, modifiedBase64Value c = none) (hnbits : r.nbits < 16)
    (hbits : fixedDigits 2 r.nbits r.bits ++ sextetBits values = unitBits units ++ pad)
    (hpad : pad.length < 16) (hunits : ∀ u ∈ units, u < 2 ^ 16) :
    decodeRun r (cs ++ rest) = (!rest.isEmpty, r.out ++ unitsOut r.high units) := by
  induction cs generalizing values units r with
  | nil =>
    obtain rfl : values = [] := by cases values with
      | nil => rfl
      | cons v values => cases hvalues
    have hnone : units = [] := by
      cases units with
      | nil => rfl
      | cons u units =>
        have hlen := congrArg List.length hbits
        simp only [sextetBits, unitBits, List.flatMap_nil, List.append_nil, List.flatMap_cons,
          List.length_append, fixedDigits_length] at hlen
        omega
    rw [hnone, unitsOut, List.append_nil, List.nil_append]
    cases rest with
    | nil => rfl
    | cons c rest => rw [decodeRun, hrest c rfl]; rfl
  | cons c cs ih =>
    obtain ⟨v, values, rfl⟩ : ∃ v vs, values = v :: vs := by
      cases values with
      | nil => cases hvalues
      | cons v values => exact ⟨v, values, rfl⟩
    rw [List.map_cons, List.map_cons, List.cons.injEq] at hvalues
    have hv := modifiedBase64Value_lt hvalues.1
    have hdigits := @accumulate r.bits r.nbits v hv hnbits
    have hbits' : fixedDigits 2 (r.nbits + 6) ((r.bits * 64 + v) % 2 ^ 32) ++ sextetBits values =
        unitBits units ++ pad := by
      rw [hdigits, List.append_assoc]
      exact hbits
    rw [List.cons_append, decodeRun, hvalues.1]
    dsimp only
    split
    · rename_i hfew
      exact ih { r with bits := (r.bits * 64 + v) % 2 ^ 32, nbits := r.nbits + 6 } hvalues.2 hfew
        hbits' hunits
    · rename_i hmany
      obtain ⟨left, hleft⟩ : ∃ left, r.nbits + 6 = 16 + left := ⟨r.nbits + 6 - 16, by omega⟩
      obtain ⟨u, units, rfl⟩ : ∃ u us, units = u :: us := by
        cases units with
        | nil =>
          have hlen := congrArg List.length hbits'
          simp only [unitBits, List.flatMap_nil, List.nil_append, List.length_append,
            fixedDigits_length] at hlen
          omega
        | cons u units => exact ⟨u, units, rfl⟩
      rw [hleft, fixedDigits_add, unitBits, List.flatMap_cons, List.append_assoc,
        List.append_assoc] at hbits'
      obtain ⟨hfirst, hbits'⟩ := List.append_inj hbits' (by simp)
      have hunit : (r.bits * 64 + v) % 2 ^ 32 / 2 ^ left % 65536 = u := by
        refine fixedDigits_inj (b := 2) (w := 16) (Nat.mod_lt _ (by decide))
          (hunits u List.mem_cons_self) ?_
        rw [← hfirst]
        exact fixedDigits_mod 16 _ (le_refl 16)
      have hsub : r.nbits + 6 - 16 = left := by omega
      rw [hsub, hunit, ShiftRun.unit_eq, unitsOut, ← List.append_assoc]
      exact ih _ hvalues.2 (by dsimp only; omega) hbits'
        fun x hx => hunits x (List.mem_cons_of_mem _ hx)

/-- What a run adds to the output does not depend on what is there. -/
theorem decodeRun_out (r : ShiftRun) (cs : Bytes) :
    decodeRun r cs = ((decodeRun { r with out := [] } cs).1,
      r.out ++ (decodeRun { r with out := [] } cs).2) := by
  induction cs generalizing r with
  | nil => simp [decodeRun]
  | cons c cs ih =>
    rw [decodeRun, decodeRun]
    cases modifiedBase64Value c with
    | none => simp
    | some v =>
      dsimp only
      split
      · exact ih _
      · rw [ShiftRun.unit_eq, ShiftRun.unit_eq]
        dsimp only
        generalize (r.bits * 64 + v) % 2 ^ 32 / 2 ^ (r.nbits + 6 - 16) % 65536 = unit
        rw [ih ⟨r.out ++ unitOut r.high unit, _, _, _⟩, ih ⟨[] ++ unitOut r.high unit, _, _, _⟩]
        simp

/-- Characters of the alphabet stand for whole units and a remainder. -/
theorem exists_units {cs : Bytes} (h : ∀ c ∈ cs, (modifiedBase64Value c).isSome) :
    ∃ values units pad : List Nat, cs.map modifiedBase64Value = values.map some ∧
      sextetBits values = unitBits units ++ pad ∧ pad.length < 16 ∧ ∀ u ∈ units, u < 2 ^ 16 := by
  obtain ⟨values, hvalues⟩ : ∃ values : List Nat,
      cs.map modifiedBase64Value = values.map some := by
    induction cs with
    | nil => exact ⟨[], rfl⟩
    | cons c cs ih =>
      obtain ⟨values, hvalues⟩ := ih fun d hd => h d (List.mem_cons_of_mem _ hd)
      obtain ⟨v, hv⟩ := Option.isSome_iff_exists.1 (h c List.mem_cons_self)
      exact ⟨v :: values, by rw [List.map_cons, List.map_cons, hv, hvalues]⟩
  have hdigits : ∀ d ∈ sextetBits values, d < 2 := by
    intro d hd
    obtain ⟨v, -, hd⟩ := List.mem_flatMap.1 hd
    exact mem_fixedDigits_lt (by decide) hd
  obtain ⟨units, pad, hbits, hpad, hunits⟩ := exists_groups (w := 16) (by decide) _ hdigits
  exact ⟨values, units, pad, hvalues, hbits, hpad, hunits⟩

/-! ## Pieces -/

inductive Piece where
  | plain (c : Byte)
  | ampersand
  /-- `'&'`, the octets and, when `closed`, `'-'` -/
  | run (octets : Bytes) (closed : Bool)
  deriving DecidableEq, Repr

namespace Piece

def text : Piece → Bytes
  | plain c => [c]
  | ampersand => [38, 45]
  | run octets closed => 38 :: octets ++ if closed then [45] else []

/-- What the loop of `decodeModifiedUtf7` adds for a piece. -/
def decoded : Piece → Bytes
  | plain c => [c]
  | ampersand => [38]
  | run octets closed =>
    let (bad, out) := decodeRun { out := [] } octets
    if bad then out ++ (run octets closed).text else out

end Piece

/-- A name as the pieces it is made of: a shift run goes from `'&'` to the next `'-'`, or to the
end of the name. -/
def pieces : Bytes → List Piece
  | [] => []
  | c :: rest =>
    if c ≠ 38 then .plain c :: pieces rest
    else if rest.head? = some 45 then .ampersand :: pieces rest.tail
    else
      let octets := rest.takeWhile (· ≠ 45)
      .run octets (octets.length < rest.length) :: pieces (rest.drop (octets.length + 1))
termination_by name => name.length
decreasing_by
  all_goals simp only [List.length_cons, List.length_tail, List.length_drop]; omega

theorem name_induction {motive : Bytes → Prop} (nil : motive [])
    (plain : ∀ c rest, c ≠ 38 → motive rest → motive (c :: rest))
    (ampersand : ∀ rest, motive rest → motive (38 :: 45 :: rest))
    (closed : ∀ octets rest, octets ≠ [] → (45 : Byte) ∉ octets → motive rest →
      motive (38 :: (octets ++ 45 :: rest)))
    (opened : ∀ octets, (45 : Byte) ∉ octets → motive (38 :: octets)) (name : Bytes) :
    motive name := by
  match name with
  | [] => exact nil
  | c :: rest =>
    by_cases hc : c = 38
    · rw [hc]
      by_cases hdash : (45 : Byte) ∈ rest
      · obtain ⟨octets, more, rfl, hoctets⟩ := List.eq_append_cons_of_mem hdash
        have hmore := name_induction nil plain ampersand closed opened more
        by_cases hempty : octets = []
        · rw [hempty]
          exact ampersand more hmore
        · exact closed octets more hempty hoctets hmore
      · exact opened rest hdash
    · exact plain c rest hc (name_induction nil plain ampersand closed opened rest)
termination_by name.length
decreasing_by
  all_goals
    subst_vars
    simp only [List.length_cons, List.length_append]
    omega

theorem takeWhile_octets {octets : Bytes} (h : (45 : Byte) ∉ octets) (rest : Bytes) :
    (octets ++ rest).takeWhile (· ≠ 45) = octets ++ rest.takeWhile (· ≠ 45) := by
  refine List.takeWhile_append_of_pos fun c hc => decide_eq_true ?_
  rintro rfl
  exact h hc

theorem takeWhile_opened {octets : Bytes} (h : (45 : Byte) ∉ octets) :
    octets.takeWhile (· ≠ 45) = octets := by
  have happ := takeWhile_octets h []
  rwa [List.append_nil, List.takeWhile_nil, List.append_nil] at happ

theorem takeWhile_closed {octets : Bytes} (h : (45 : Byte) ∉ octets) (rest : Bytes) :
    (octets ++ 45 :: rest).takeWhile (· ≠ 45) = octets := by
  rw [takeWhile_octets h, List.takeWhile_cons_of_neg (by simp), List.append_nil]

theorem drop_closed (octets rest : Bytes) :
    (octets ++ 45 :: rest).drop (octets.length + 1) = rest := by
  rw [← List.drop_drop, List.drop_left]
  rfl

theorem take_closed (octets rest : Bytes) :
    (octets ++ 45 :: rest).take (octets.length + 1) = octets ++ [45] := by
  rw [List.take_length_add_append]
  rfl

theorem head?_closed {octets : Bytes} (hne : octets ≠ []) (h : (45 : Byte) ∉ octets)
    (rest : Bytes) : (octets ++ rest).head? ≠ some 45 := by
  cases octets with
  | nil => exact absurd rfl hne
  | cons c octets =>
    rintro heq
    exact h (Option.some.inj heq ▸ List.mem_cons_self)

theorem head?_opened {octets : Bytes} (h : (45 : Byte) ∉ octets) : octets.head? ≠ some 45 :=
  fun heq => h (List.mem_of_mem_head? heq)

theorem pieces_plain {c : Byte} (hc : c ≠ 38) (rest : Bytes) :
    pieces (c :: rest) = .plain c :: pieces rest := by
  rw [pieces, if_pos hc]

theorem pieces_ampersand (rest : Bytes) : pieces (38 :: 45 :: rest) = .ampersand :: pieces rest := by
  rw [pieces, if_neg (by simp), List.head?_cons, if_pos rfl]
  rfl

theorem pieces_closed {octets : Bytes} (hne : octets ≠ []) (h : (45 : Byte) ∉ octets)
    (rest : Bytes) :
    pieces (38 :: (octets ++ 45 :: rest)) = .run octets true :: pieces rest := by
  rw [pieces, if_neg (by simp), if_neg (head?_closed hne h _)]
  dsimp only
  rw [takeWhile_closed h, drop_closed]
  simp

theorem pieces_opened {octets : Bytes} (h : (45 : Byte) ∉ octets) :
    pieces (38 :: octets) = [.run octets false] := by
  rw [pieces, if_neg (by simp), if_neg (head?_opened h)]
  dsimp only
  rw [takeWhile_opened h, List.drop_of_length_le (by omega), pieces]
  simp

theorem pieces_text (name : Bytes) : (pieces name).flatMap Piece.text = name := by
  induction name using name_induction with
  | nil => rw [pieces]; rfl
  | plain c rest hc ih => rw [pieces_plain hc, List.flatMap_cons, ih]; rfl
  | ampersand rest ih => rw [pieces_ampersand, List.flatMap_cons, ih]; rfl
  | closed octets rest hne h ih =>
    rw [pieces_closed hne h, List.flatMap_cons, ih]
    simp [Piece.text]
  | opened octets h =>
    rw [pieces_opened h]
    simp [Piece.text]

theorem decodeLoop_eq (name : Bytes) :
    ∀ (fuel : Nat) (out : Bytes), name.length ≤ fuel →
      decodeLoop fuel out name = out ++ (pieces name).flatMap Piece.decoded := by
  induction name using name_induction with
  | nil =>
    intro fuel out _
    cases fuel <;> simp [decodeLoop, pieces]
  | plain c rest hc ih =>
    intro fuel out hfuel
    obtain ⟨fuel, rfl⟩ : ∃ k, fuel = k + 1 := ⟨fuel - 1, by simp at hfuel; omega⟩
    rw [decodeLoop, if_pos hc, ih fuel _ (by simpa using hfuel), pieces_plain hc]
    simp [Piece.decoded]
  | ampersand rest ih =>
    intro fuel out hfuel
    obtain ⟨fuel, rfl⟩ : ∃ k, fuel = k + 1 := ⟨fuel - 1, by simp at hfuel; omega⟩
    rw [decodeLoop, if_neg (by simp), List.head?_cons, if_pos rfl, List.tail_cons,
      ih fuel _ (by simp at hfuel; omega), pieces_ampersand]
    simp [Piece.decoded]
  | closed octets rest hne h ih =>
    intro fuel out hfuel
    obtain ⟨fuel, rfl⟩ : ∃ k, fuel = k + 1 := ⟨fuel - 1, by simp at hfuel; omega⟩
    rw [decodeLoop, if_neg (by simp), if_neg (head?_closed hne h _)]
    dsimp only
    rw [takeWhile_closed h, drop_closed, take_closed, ih fuel _ (by simp at hfuel; omega),
      pieces_closed hne h, List.flatMap_cons, ← List.append_assoc, decodeRun_out]
    congr 1
    rw [Piece.decoded]
    obtain ⟨bad, decoded⟩ := decodeRun { out := [] } octets
    cases bad <;> simp [Piece.text]
  | opened octets h =>
    intro fuel out hfuel
    obtain ⟨fuel, rfl⟩ : ∃ k, fuel = k + 1 := ⟨fuel - 1, by simp at hfuel; omega⟩
    rw [decodeLoop, if_neg (by simp), if_neg (head?_opened h)]
    dsimp only
    rw [takeWhile_opened h, List.drop_of_length_le (by omega), pieces_opened h, decodeRun_out]
    have hnil (out : Bytes) : decodeLoop fuel out [] = out := by cases fuel <;> rfl
    rw [hnil, List.flatMap_singleton, Piece.decoded]
    have htake : octets.take (octets.length + 1) = octets := List.take_of_length_le (by omega)
    obtain ⟨bad, decoded⟩ := decodeRun { out := [] } octets
    cases bad <;> simp [Piece.text, htake]

/-- A name is decoded piece by piece. -/
theorem decodeModifiedUtf7_eq (name : Bytes) :
    decodeModifiedUtf7 name = (pieces name).flatMap Piece.decoded := by
  rw [decodeModifiedUtf7, decodeLoop_eq name _ _ (le_refl _), List.nil_append]

theorem not_mem_of_run_mem_pieces {name octets : Bytes} {closed : Bool}
    (h : .run octets closed ∈ pieces name) :
    (45 : Byte) ∉ octets ∧ (closed = true → octets ≠ []) ∧ ∀ c ∈ octets, c ∈ name := by
  induction name using name_induction with
  | nil =>
    rw [pieces] at h
    cases h
  | plain c rest hc ih =>
    rw [pieces_plain hc, List.mem_cons] at h
    obtain heq | h := h
    · cases heq
    · exact (ih h).imp_right (And.imp_right fun hmem x hx => List.mem_cons_of_mem _ (hmem x hx))
  | ampersand rest ih =>
    rw [pieces_ampersand, List.mem_cons] at h
    obtain heq | h := h
    · cases heq
    · exact (ih h).imp_right (And.imp_right fun hmem x hx =>
        List.mem_cons_of_mem _ (List.mem_cons_of_mem _ (hmem x hx)))
  | closed octets' rest hne hdash ih =>
    rw [pieces_closed hne hdash, List.mem_cons] at h
    obtain heq | h := h
    · cases heq
      exact ⟨hdash, fun _ => hne, fun c hc => by simp [hc]⟩
    · exact (ih h).imp_right (And.imp_right fun hmem x hx => by simp [hmem x hx])
  | opened octets' hdash =>
    rw [pieces_opened hdash, List.mem_singleton] at h
    cases h
    exact ⟨hdash, fun hclosed => absurd hclosed (by decide), fun c hc => List.mem_cons_of_mem _ hc⟩

theorem ne_of_plain_mem_pieces {name : Bytes} {c : Byte} (h : .plain c ∈ pieces name) :
    c ≠ 38 ∧ c ∈ name := by
  induction name using name_induction with
  | nil =>
    rw [pieces] at h
    cases h
  | plain c' rest hc ih =>
    rw [pieces_plain hc, List.mem_cons] at h
    obtain heq | h := h
    · cases heq
      exact ⟨hc, List.mem_cons_self⟩
    · exact (ih h).imp_right (List.mem_cons_of_mem _)
  | ampersand rest ih =>
    rw [pieces_ampersand, List.mem_cons] at h
    obtain heq | h := h
    · cases heq
    · exact (ih h).imp_right fun hmem => List.mem_cons_of_mem _ (List.mem_cons_of_mem _ hmem)
  | closed octets rest hne hdash ih =>
    rw [pieces_closed hne hdash, List.mem_cons] at h
    obtain heq | h := h
    · cases heq
    · exact (ih h).imp_right fun hmem => by simp [hmem]
  | opened octets hdash =>
    rw [pieces_opened hdash, List.mem_singleton] at h
    cases h

/-- A shift run that is a name of its own is decoded as it is within a name. -/
theorem decode_run {name octets : Bytes} {closed : Bool} (h : .run octets closed ∈ pieces name) :
    decodeModifiedUtf7 (Piece.run octets closed).text = (Piece.run octets closed).decoded := by
  obtain ⟨hdash, hne, -⟩ := not_mem_of_run_mem_pieces h
  have hone : pieces (Piece.run octets closed).text = [.run octets closed] := by
    cases closed with
    | true =>
      have hpieces := pieces_closed (hne rfl) hdash []
      rw [pieces] at hpieces
      exact hpieces
    | false =>
      rw [Piece.text, if_neg (by decide), List.append_nil]
      exact pieces_opened hdash
  rw [decodeModifiedUtf7_eq, hone, List.flatMap_singleton]

end Imap
end Imap2Pst
