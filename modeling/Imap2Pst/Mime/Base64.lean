import Imap2Pst.Mime.Encodings

/-!
# Mime.Base64

The base64 encoding of RFC 2045, and what `decodeBase64` makes of it on its way through the mail.

* `encodeBase64`  — the encoding; `Carries`: a text that has it, with noise in between.
* `drain`         — the accumulator of `decodeBase64` as a number.
* `drain_sextets` — a front of the encoding gives back a front of the octets.
-/

namespace Imap2Pst
namespace Mime

open CxxStd

/-! ## The encoding -/

def base64Alphabet : Bytes := str "ABCDEFGHIJKLMNOPQRSTUVWXYZabcdefghijklmnopqrstuvwxyz0123456789+/"

/-- The groups of 6 bits; the last one is filled up with zeros. -/
def sextets : List Nat → List Nat
  | [] => []
  | [a] => [a / 4, a % 4 * 16]
  | [a, b] => [a / 4, a % 4 * 16 + b / 16, b % 16 * 4]
  | a :: b :: c :: rest =>
    a / 4 :: (a % 4 * 16 + b / 16) :: (b % 16 * 4 + c / 64) :: c % 64 :: sextets rest

def base64Char (v : Nat) : Byte := base64Alphabet.getD v 0

def encodeBase64 (padded : Bool) (d : Bytes) : Bytes :=
  (sextets (d.map UInt8.toNat)).map base64Char ++
    if padded then List.replicate ((3 - d.length % 3) % 3) (chr '=') else []

example : encodeBase64 true (str "hello") = str "aGVsbG8=" := by decide +kernel

/-- The text has these characters, with anything in between that is not of an encoding. -/
def Carries (s e : Bytes) : Prop := (s.filter fun c => c ∈ base64Alphabet ∨ c = chr '=') = e

instance (s e : Bytes) : Decidable (Carries s e) := inferInstanceAs (Decidable (_ = _))

/-! ## The accumulator -/

/-- The loop of `decodeBase64` on groups of 6 bits; `n` is what is read and not written yet. -/
def drain (n pending : Nat) : List Nat → List Nat
  | [] => []
  | v :: vs =>
    if 2 ≤ pending then
      (n * 64 + v) / 2 ^ (pending - 2) :: drain ((n * 64 + v) % 2 ^ (pending - 2)) (pending - 2) vs
    else drain (n * 64 + v) (pending + 6) vs

/-- The value of a character of the alphabet is its place in it. -/
theorem base64Value_base64Char {v : Nat} (h : v < 64) :
    base64Value (base64Char v) = some v.toUInt32 := by
  have hall : ∀ v : Fin 64, base64Value (base64Char v.val) = some v.val.toUInt32 := by
    decide +kernel
  exact hall ⟨v, h⟩

theorem base64Char_ne {v : Nat} (h : v < 64) : base64Char v ≠ chr '=' := by
  have hall : ∀ v : Fin 64, base64Char v.val ≠ chr '=' := by decide +kernel
  exact hall ⟨v, h⟩

theorem base64Value_noise {c : Byte} (h : c ∉ base64Alphabet) : base64Value c = none := by
  have hall : ∀ c : Byte, (base64Value c).isSome → c ∈ base64Alphabet :=
    forall_byte (by decide +kernel)
  cases hv : base64Value c with
  | none => rfl
  | some v => exact absurd (hall c (by rw [hv]; rfl)) h

/-- Noise is passed over. -/
theorem decodeBase64From_filter (bits : UInt32) (pending : Nat) (s : Bytes) :
    decodeBase64From bits pending (s.filter fun c => c ∈ base64Alphabet ∨ c = chr '=') =
      decodeBase64From bits pending s := by
  induction s generalizing bits pending with
  | nil => rfl
  | cons c cs ih =>
    rw [List.filter_cons]
    split
    · simp only [decodeBase64From, ih]
    · rename_i h
      rw [decide_eq_true_eq, not_or] at h
      rw [ih, decodeBase64From, if_neg h.2, base64Value_noise h.1]

theorem accumulate (bits : UInt32) {v : Nat} (hv : v < 64) :
    (bits <<< 6 ||| v.toUInt32).toNat = bits.toNat * 64 % 2 ^ 32 + v := by
  have hval : v.toUInt32.toNat = v := by
    rw [UInt32.toNat_ofNat']
    exact Nat.mod_eq_of_lt (by omega)
  have hshift : (bits <<< 6).toNat = bits.toNat % 2 ^ 26 * 2 ^ 6 := by
    rw [UInt32.toNat_shiftLeft, Nat.shiftLeft_eq]
    show bits.toNat * 2 ^ 6 % 2 ^ 32 = _
    omega
  rw [UInt32.toNat_or, hval, hshift, Nat.mul_comm, ← Nat.two_pow_add_eq_or_of_lt hv]
  omega

/-- The octet taken out does not see the stale bits above `pending`. -/
theorem shifted_out {bits : UInt32} {n m pending : Nat} (hm : m < 32)
    (hn : n = bits.toNat % 2 ^ pending) (hp : pending = m + 8) :
    (bits >>> m.toUInt32).toUInt8 = (n / 2 ^ m).toUInt8 := by
  have hval : m.toUInt32.toNat = m := by
    rw [UInt32.toNat_ofNat']
    exact Nat.mod_eq_of_lt (by omega)
  apply UInt8.toNat_inj.1
  rw [UInt32.toNat_toUInt8, UInt32.toNat_shiftRight, hval, Nat.mod_eq_of_lt hm,
    Nat.shiftRight_eq_div_pow, UInt8.toNat_ofNat', hn, hp, Nat.pow_add, Nat.mod_mul_right_div_self]
  exact (Nat.mod_mod _ _).symm

/-- The accumulator holds an even number of bits, at most 6, whenever a character is read. -/
theorem decodeBase64From_eq (vs : List Nat) (hvs : ∀ v ∈ vs, v < 64) {tail : Bytes}
    (htail : tail = [] ∨ tail.head? = some (chr '=')) (bits : UInt32) {n pending : Nat}
    (hpending : pending % 2 = 0 ∧ pending ≤ 6) (hn : n = bits.toNat % 2 ^ pending) :
    decodeBase64From bits pending (vs.map base64Char ++ tail) =
      (drain n pending vs).map Nat.toUInt8 := by
  induction vs generalizing bits n pending with
  | nil =>
    rcases htail with rfl | htail
    · rfl
    · obtain ⟨rest, rfl⟩ := List.head?_eq_some_iff.1 htail
      rfl
  | cons v vs ih =>
    have hv := hvs v List.mem_cons_self
    have hacc := accumulate bits hv
    replace ih := @ih (fun v hv => hvs v (List.mem_cons_of_mem _ hv))
    have hmod : ((bits <<< 6 ||| v.toUInt32).toNat % 2 ^ (pending + 6)) = n * 64 + v := by
      have hbound : pending = 0 ∨ pending = 2 ∨ pending = 4 ∨ pending = 6 := by omega
      rw [hacc, hn]
      rcases hbound with rfl | rfl | rfl | rfl <;> omega
    rw [List.map_cons, List.cons_append, decodeBase64From, if_neg (base64Char_ne hv),
      base64Value_base64Char hv, drain]
    dsimp only
    by_cases hout : 2 ≤ pending
    · have hsub : pending + 6 - 8 = pending - 2 := by omega
      rw [if_pos (by omega), if_pos hout, List.map_cons, hsub,
        shifted_out (by omega) hmod.symm (by omega), ih _ (by omega) ?_]
      rw [← hmod, Nat.mod_mod_of_dvd _ (Nat.pow_dvd_pow 2 (by omega))]
    · rw [if_neg (by omega), if_neg hout]
      exact ih _ (by omega) hmod.symm

/-! ## Through the mail -/

theorem sextets_lt {d : List Nat} (h : ∀ a ∈ d, a < 256) : ∀ v ∈ sextets d, v < 64 := by
  induction d using sextets.induct with
  | case1 => simp [sextets]
  | case2 a =>
    have ha := h a (by simp)
    simp only [sextets, List.mem_cons, List.not_mem_nil, or_false, forall_eq_or_imp, forall_eq]
    omega
  | case3 a b =>
    have ha := h a (by simp)
    have hb := h b (by simp)
    simp only [sextets, List.mem_cons, List.not_mem_nil, or_false, forall_eq_or_imp, forall_eq]
    omega
  | case4 a b c rest ih =>
    have ha := h a (by simp)
    have hb := h b (by simp)
    have hc := h c (by simp)
    simp only [sextets, List.mem_cons, forall_eq_or_imp]
    exact ⟨by omega, by omega, by omega, by omega,
      ih fun x hx => h x (by simp [hx])⟩

theorem drain_first (v : Nat) (vs : List Nat) : drain 0 0 (v :: vs) = drain v 6 vs := by
  simp [drain]

/-- One octet is complete, the bits `m` stay. -/
theorem drain_out {n pending v a m : Nat} (vs : List Nat) (h : 2 ≤ pending)
    (heq : n * 64 + v = a * 2 ^ (pending - 2) + m) (hm : m < 2 ^ (pending - 2)) :
    drain n pending (v :: vs) = a :: drain m (pending - 2) vs := by
  have hdiv : (a * 2 ^ (pending - 2) + m) / 2 ^ (pending - 2) = a := by
    rw [Nat.mul_comm, Nat.mul_add_div (Nat.two_pow_pos _), Nat.div_eq_of_lt hm, Nat.add_zero]
  have hmod : (a * 2 ^ (pending - 2) + m) % 2 ^ (pending - 2) = m := by
    rw [Nat.mul_add_mod_self_right, Nat.mod_eq_of_lt hm]
  rw [drain, if_pos h, heq, hdiv, hmod]

/-- A front of the encoding gives back the octets it has in full. -/
theorem drain_sextets {d : List Nat} (h : ∀ a ∈ d, a < 256) (k : Nat)
    (hk : k ≤ (sextets d).length) : drain 0 0 ((sextets d).take k) = d.take (6 * k / 8) := by
  induction d using sextets.induct generalizing k with
  | case1 => simp [sextets, drain]
  | case2 a =>
    have ha := h a (by simp)
    rw [sextets] at hk ⊢
    rcases k with _ | _ | _ | k
    · rfl
    · rfl
    · simp only [List.take_succ_cons, List.take_zero]
      rw [drain_first, drain_out [] (by omega) (a := a) (m := 0) (by omega) (by omega)]
      rfl
    · simp only [List.length_cons, List.length_nil] at hk
      omega
  | case3 a b =>
    have ha := h a (by simp)
    have hb := h b (by simp)
    rw [sextets] at hk ⊢
    rcases k with _ | _ | _ | _ | k
    · rfl
    · rfl
    · simp only [List.take_succ_cons, List.take_zero]
      rw [drain_first, drain_out [] (by omega) (a := a) (m := b / 16) (by omega) (by omega)]
      rfl
    · simp only [List.take_succ_cons, List.take_zero]
      rw [drain_first, drain_out _ (by omega) (a := a) (m := b / 16) (by omega) (by omega),
        drain_out [] (by omega) (a := b) (m := 0) (by omega) (by omega)]
      rfl
    · simp only [List.length_cons, List.length_nil] at hk
      omega
  | case4 a b c rest ih =>
    have ha := h a (by simp)
    have hb := h b (by simp)
    have hc := h c (by simp)
    have hrest := ih fun x hx => h x (by simp [hx])
    rw [sextets] at hk ⊢
    rcases k with _ | _ | _ | _ | k
    · rfl
    · rfl
    · simp only [List.take_succ_cons, List.take_zero]
      rw [drain_first, drain_out [] (by omega) (a := a) (m := b / 16) (by omega) (by omega)]
      rfl
    · simp only [List.take_succ_cons, List.take_zero]
      rw [drain_first, drain_out _ (by omega) (a := a) (m := b / 16) (by omega) (by omega),
        drain_out [] (by omega) (a := b) (m := c / 64) (by omega) (by omega)]
      rfl
    · have hlength : 6 * (k + 4) / 8 = 6 * k / 8 + 3 := by omega
      simp only [List.length_cons, Nat.add_le_add_iff_right] at hk
      simp only [List.take_succ_cons, hlength]
      rw [drain_first, drain_out _ (by omega) (a := a) (m := b / 16) (by omega) (by omega),
        drain_out _ (by omega) (a := b) (m := c / 64) (by omega) (by omega),
        drain_out _ (by omega) (a := c) (m := 0) (by omega) (by omega)]
      exact congrArg _ (congrArg _ (congrArg _ (hrest k hk)))

theorem octets_lt (d : Bytes) : ∀ a ∈ d.map UInt8.toNat, a < 256 := by
  intro a ha
  obtain ⟨c, -, rfl⟩ := List.mem_map.1 ha
  exact c.toNat_lt

theorem octets_back (d : Bytes) : (d.map UInt8.toNat).map Nat.toUInt8 = d := by
  rw [List.map_map]
  exact List.map_id'' (fun c => UInt8.ofNat_toNat) d

theorem length_sextets (d : List Nat) : d.length ≤ 6 * (sextets d).length / 8 := by
  induction d using sextets.induct with
  | case1 => simp
  | case2 a => simp [sextets]
  | case3 a b => simp [sextets]
  | case4 a b c rest ih =>
    simp only [sextets, List.length_cons]
    omega

/-- The padding stops the reader. -/
theorem decodeBase64_take (d : Bytes) {k : Nat} (hk : k ≤ (sextets (d.map UInt8.toNat)).length)
    (tail : Bytes) (htail : tail = [] ∨ tail.head? = some (chr '=')) :
    decodeBase64 (((sextets (d.map UInt8.toNat)).take k).map base64Char ++ tail) =
      d.take (6 * k / 8) := by
  have hlt := sextets_lt (octets_lt d)
  rw [decodeBase64, decodeBase64From_eq _ (fun v hv => hlt v (List.mem_of_mem_take hv)) htail 0
      (n := 0) (by omega) rfl,
    drain_sextets (octets_lt d) k hk, List.map_take, octets_back]

/-- **Transport.** Noise between the characters changes nothing, and what is cut off costs the
    octets it belongs to and no other. -/
theorem base64_survives_transport (d s : Bytes) :
    (∀ padded, Carries s (encodeBase64 padded d) → decodeBase64 s = d) ∧
    ∀ k ≤ (encodeBase64 false d).length, Carries s ((encodeBase64 false d).take k) →
      decodeBase64 s = d.take (6 * k / 8) := by
  have hfilter := decodeBase64From_filter 0 0 s
  have hunpadded : encodeBase64 false d = (sextets (d.map UInt8.toNat)).map base64Char :=
    List.append_nil _
  constructor
  · intro padded hs
    rw [hs] at hfilter
    have hall := decodeBase64_take d (Nat.le_refl (sextets (d.map UInt8.toNat)).length)
      (if padded then List.replicate ((3 - d.length % 3) % 3) (chr '=') else [])
      (by
        cases padded with
        | false => exact .inl rfl
        | true =>
          cases h : (3 - d.length % 3) % 3 with
          | zero => exact .inl rfl
          | succ m => exact .inr rfl)
    have hlength := length_sextets (d.map UInt8.toNat)
    rw [List.length_map] at hlength
    rw [List.take_length, List.take_of_length_le hlength] at hall
    exact hfilter.symm.trans hall
  · intro k hk hs
    rw [hunpadded, List.length_map] at hk
    rw [hs, hunpadded, ← List.map_take] at hfilter
    have hfront := decodeBase64_take d hk [] (.inl rfl)
    rw [List.append_nil] at hfront
    exact hfilter.symm.trans hfront

theorem broken_lines_survive :
    decodeBase64 (str "aGV\r\n-sb G8=\n") = str "hello" ∧
      decodeBase64 (str "aGV\r\n-sb") = (str "hello").take (6 * 5 / 8) :=
  ⟨(base64_survives_transport (str "hello") (str "aGV\r\n-sb G8=\n")).1 true
      (by decide +kernel),
    (base64_survives_transport (str "hello") (str "aGV\r\n-sb")).2 5 (by decide +kernel)
      (by decide +kernel)⟩

end Mime
end Imap2Pst
