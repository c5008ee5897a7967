import Mathlib.Data.BitVec
import Mathlib.Logic.Function.Iterate

/-!
# Std.ShiftRegister

A reflected shift register of any width, into which a message is fed bit by bit at the low end.

* `shift`, `feed`, `run` — one place down, one bit, a message.
* `run_xor`              — the register is linear.
* `run_eq`               — a message that fits the register is XORed into it and shifted out.
* `run_ne_of_window`     — messages that differ only within the width of the register end apart.
-/

namespace CxxStd
namespace ShiftRegister

variable {n : Nat} (p : BitVec n)

/-- One place down; the bit that falls out brings in the polynomial. -/
def shift (c : BitVec n) : BitVec n := if c.getLsbD 0 then c >>> 1 ^^^ p else c >>> 1

/-- A bit at the low end. -/
def low (b : Bool) : BitVec n := BitVec.setWidth n (BitVec.ofBool b)

def feed (c : BitVec n) (b : Bool) : BitVec n := shift p (c ^^^ low b)

def run (c : BitVec n) (bits : List Bool) : BitVec n := bits.foldl (feed p) c

/-- The message as a number, its first bit lowest. -/
def ofBits : List Bool → BitVec n
  | [] => 0
  | b :: bs => low b ^^^ ofBits bs <<< 1

/-! ## Bits -/

theorem getLsbD_low (b : Bool) (i : Nat) :
    (low b : BitVec n).getLsbD i = (decide (i < n) && (decide (i = 0) && b)) := by
  rw [low, BitVec.getLsbD_setWidth, BitVec.getLsbD_ofBool]

theorem low_xor (a b : Bool) : (low (a ^^ b) : BitVec n) = low a ^^^ low b := by
  refine BitVec.eq_of_getLsbD_eq fun i hi => ?_
  rw [BitVec.getLsbD_xor, getLsbD_low, getLsbD_low, getLsbD_low]
  cases a <;> cases b <;> simp

theorem getLsbD_ofBits (bits : List Bool) (i : Nat) :
    (ofBits bits : BitVec n).getLsbD i = (decide (i < n) && bits.getD i false) := by
  induction bits generalizing i with
  | nil => simp [ofBits]
  | cons b bs ih =>
    rw [ofBits, BitVec.getLsbD_xor, getLsbD_low, BitVec.getLsbD_shiftLeft]
    cases i with
    | zero => simp
    | succ i =>
      rw [Nat.add_sub_cancel, ih, List.getD_cons_succ]
      by_cases hi : i + 1 < n
      · simp [hi, Nat.lt_of_succ_lt hi]
      · simp [hi]

/-- The bits of a message that fits can be told from its number. -/
theorem ofBits_inj {a b : List Bool} (hlength : a.length = b.length) (hfit : a.length ≤ n)
    (h : (ofBits a : BitVec n) = ofBits b) : a = b := by
  refine List.ext_getElem hlength fun i ha hb => ?_
  have hi := congrArg (BitVec.getLsbD · i) h
  simp only [getLsbD_ofBits] at hi
  have hlt : i < n := Nat.lt_of_lt_of_le ha hfit
  rwa [decide_eq_true hlt, Bool.true_and, Bool.true_and, List.getD_eq_getElem?_getD,
    List.getD_eq_getElem?_getD, List.getElem?_eq_getElem ha, List.getElem?_eq_getElem hb] at hi

/-! ## One step -/

theorem shift_xor (c d : BitVec n) : shift p (c ^^^ d) = shift p c ^^^ shift p d := by
  have hswap (x y z : BitVec n) : x ^^^ y ^^^ z = x ^^^ z ^^^ y := by
    rw [BitVec.xor_assoc, BitVec.xor_comm y, BitVec.xor_assoc]
  unfold shift
  rw [BitVec.getLsbD_xor, BitVec.ushiftRight_xor_distrib]
  cases hc : c.getLsbD 0 with
  | false =>
    cases hd : d.getLsbD 0 with
    | false => rfl
    | true => exact BitVec.xor_assoc _ _ _
  | true =>
    cases hd : d.getLsbD 0 with
    | false => exact hswap _ _ _
    | true =>
      show c >>> 1 ^^^ d >>> 1 = c >>> 1 ^^^ p ^^^ (d >>> 1 ^^^ p)
      rw [← BitVec.xor_assoc, hswap (c >>> 1) p, BitVec.xor_assoc (c >>> 1 ^^^ d >>> 1),
        BitVec.xor_self, BitVec.xor_zero]

theorem feed_xor (c d : BitVec n) (a b : Bool) :
    feed p (c ^^^ d) (a ^^ b) = feed p c a ^^^ feed p d b := by
  have hswap : c ^^^ d ^^^ (low a ^^^ low b) = c ^^^ low a ^^^ (d ^^^ low b) := by
    rw [BitVec.xor_assoc, ← BitVec.xor_assoc d, BitVec.xor_comm d, BitVec.xor_assoc (low a),
      ← BitVec.xor_assoc]
  rw [feed, low_xor, hswap, shift_xor, feed, feed]

theorem iterate_xor (k : Nat) (c d : BitVec n) :
    (shift p)^[k] (c ^^^ d) = (shift p)^[k] c ^^^ (shift p)^[k] d := by
  induction k generalizing c d with
  | zero => rfl
  | succ k ih => rw [Function.iterate_succ_apply, shift_xor, ih]; rfl

/-- A register whose low bits are clear only moves down. -/
theorem iterate_low {c : BitVec n} {k : Nat} (h : ∀ i < k, c.getLsbD i = false) :
    (shift p)^[k] c = c >>> k := by
  induction k with
  | zero => rfl
  | succ k ih =>
    have hbit : (c >>> k).getLsbD 0 = false := by
      rw [BitVec.getLsbD_ushiftRight]
      exact h k (Nat.lt_succ_self k)
    rw [Function.iterate_succ_apply', ih fun i hi => h i (Nat.lt_succ_of_lt hi), shift, hbit,
      if_neg Bool.false_ne_true, BitVec.shiftRight_add]

/-- Only the low bits bring in the polynomial; what is above them moves down. -/
theorem iterate_eq {c d : BitVec n} {k : Nat} (hlow : ∀ i < k, d.getLsbD i = c.getLsbD i)
    (hhigh : d >>> k = 0) : (shift p)^[k] c = (shift p)^[k] d ^^^ c >>> k := by
  have hclear : ∀ i < k, (d ^^^ c).getLsbD i = false := by
    intro i hi
    rw [BitVec.getLsbD_xor, hlow i hi, Bool.xor_self]
  have hsum : c = d ^^^ (d ^^^ c) := by
    rw [← BitVec.xor_assoc, BitVec.xor_self, BitVec.zero_xor]
  conv_lhs => rw [hsum, iterate_xor, iterate_low p hclear]
  rw [BitVec.ushiftRight_xor_distrib, hhigh]
  exact congrArg _ BitVec.zero_xor

/-- What stands below the top comes back down. -/
theorem shift_shiftLeft {c : BitVec n} (h : ∀ i, i + 1 = n → c.getLsbD i = false) :
    shift p (c <<< 1) = c := by
  have hlow : (c <<< 1).getLsbD 0 = false := by simp
  rw [shift, hlow, if_neg Bool.false_ne_true]
  refine BitVec.eq_of_getLsbD_eq fun i hi => ?_
  rw [BitVec.getLsbD_ushiftRight, BitVec.getLsbD_shiftLeft]
  by_cases htop : i + 1 = n
  · have hout : ¬ 1 + i < n := by omega
    simp [h i htop, hout]
  · have hlt : 1 + i < n := by omega
    simp [hlt]

/-- Where the polynomial reaches the top, no step loses anything. -/
theorem shift_inj (hp : p.msb = true) {c d : BitVec n} (h : shift p c = shift p d) : c = d := by
  have hzero {x : BitVec n} (hx : shift p x = 0) : x = 0 := by
    have hbit (i : Nat) : (shift p x).getLsbD i = false := by rw [hx]; simp
    have hpos : 0 < n := by
      cases n with
      | zero => simp [BitVec.msb, BitVec.getMsbD] at hp
      | succ n => exact Nat.succ_pos n
    have hlow : x.getLsbD 0 = false := by
      -- the top of the register holds nothing but the polynomial's
      by_contra hlow
      have htop := hbit (n - 1)
      rw [Bool.not_eq_false] at hlow
      rw [shift, hlow, if_pos rfl, BitVec.getLsbD_xor, BitVec.getLsbD_ushiftRight,
        BitVec.getLsbD_of_ge x (1 + (n - 1)) (by omega), Bool.false_xor,
        ← BitVec.msb_eq_getLsbD_last, hp] at htop
      cases htop
    refine BitVec.eq_of_getLsbD_eq fun i hi => ?_
    cases i with
    | zero => simpa using hlow
    | succ i =>
      have hi := hbit i
      rw [shift, hlow, if_neg Bool.false_ne_true, BitVec.getLsbD_ushiftRight, Nat.add_comm] at hi
      simpa using hi
  have hsum : shift p (c ^^^ d) = 0 := by rw [shift_xor, h, BitVec.xor_self]; rfl
  exact BitVec.xor_eq_zero_iff.1 (hzero hsum)

theorem feed_inj (hp : p.msb = true) {c d : BitVec n} {b : Bool} (h : feed p c b = feed p d b) :
    c = d :=
  (BitVec.xor_left_inj (low b)).1 (shift_inj p hp h)

/-! ## Messages -/

@[simp] theorem run_nil (c : BitVec n) : run p c [] = c := rfl

@[simp] theorem run_cons (c : BitVec n) (b : Bool) (bits : List Bool) :
    run p c (b :: bits) = run p (feed p c b) bits := rfl

@[simp] theorem run_append (c : BitVec n) (a b : List Bool) :
    run p c (a ++ b) = run p (run p c a) b := List.foldl_append

theorem run_xor (c d : BitVec n) {a b : List Bool} (hlength : a.length = b.length) :
    run p (c ^^^ d) (List.zipWith (· ^^ ·) a b) = run p c a ^^^ run p d b := by
  induction a generalizing b c d with
  | nil =>
    rw [List.length_eq_zero_iff.1 hlength.symm]
    rfl
  | cons x a ih =>
    cases b with
    | nil => cases hlength
    | cons y b =>
      rw [List.zipWith_cons_cons, run_cons, run_cons, run_cons, feed_xor]
      exact ih _ _ (Nat.succ.inj hlength)

/-- A message that fits the register is XORed into it and shifted out. -/
theorem run_eq {bits : List Bool} (hfit : bits.length ≤ n) (c : BitVec n) :
    run p c bits = (shift p)^[bits.length] (c ^^^ ofBits bits) := by
  induction bits generalizing c with
  | nil => exact (BitVec.xor_zero).symm
  | cons b bs ih =>
    rw [List.length_cons] at hfit
    have htop : ∀ i, i + 1 = n → (ofBits bs : BitVec n).getLsbD i = false := by
      intro i hi
      have hout : bs.length ≤ i := by omega
      rw [getLsbD_ofBits, List.getD_eq_getElem?_getD, List.getElem?_eq_none hout]
      simp
    rw [run_cons, ih (by omega), List.length_cons, Function.iterate_succ_apply, ofBits,
      ← BitVec.xor_assoc, shift_xor p (c ^^^ low b), shift_shiftLeft p htop]
    rfl

theorem run_inj (hp : p.msb = true) {c d : BitVec n} {bits : List Bool}
    (h : run p c bits = run p d bits) : c = d := by
  induction bits generalizing c d with
  | nil => exact h
  | cons b bits ih => exact feed_inj p hp (ih h)

/-- Different messages that fit the register leave it different. -/
theorem run_ne (hp : p.msb = true) {a b : List Bool} (hlength : a.length = b.length)
    (hfit : a.length ≤ n) (hne : a ≠ b) (c : BitVec n) : run p c a ≠ run p c b := by
  intro h
  rw [run_eq p hfit, run_eq p (hlength ▸ hfit), hlength] at h
  have hinj : Function.Injective (shift p)^[b.length] :=
    Function.Injective.iterate (fun _ _ heq => shift_inj p hp heq) b.length
  exact hne (ofBits_inj hlength hfit ((BitVec.xor_right_inj c).1 (hinj h)))

/-- Messages that differ only within the width of the register end apart. -/
theorem run_ne_of_window (hp : p.msb = true) {a b : List Bool} (hlength : a.length = b.length)
    (hne : a ≠ b) {i : Nat} (hsame : ∀ j, j < i ∨ i + n ≤ j → a[j]? = b[j]?) (c : BitVec n) :
    run p c a ≠ run p c b := by
  have hsplit (s : List Bool) : s = s.take i ++ ((s.drop i).take n ++ s.drop (i + n)) := by
    rw [← List.drop_drop, List.take_append_drop, List.take_append_drop]
  have hfront : a.take i = b.take i := by
    refine List.ext_getElem? fun j => ?_
    rw [List.getElem?_take, List.getElem?_take]
    split
    · rename_i hj
      exact hsame j (.inl hj)
    · rfl
  have hback : a.drop (i + n) = b.drop (i + n) := by
    refine List.ext_getElem? fun j => ?_
    rw [List.getElem?_drop, List.getElem?_drop]
    exact hsame _ (.inr (Nat.le_add_right _ _))
  have hwindow : (a.drop i).take n ≠ (b.drop i).take n := by
    intro heq
    refine hne ?_
    rw [hsplit a, hsplit b, hfront, heq, hback]
  intro h
  rw [hsplit a, hsplit b, hfront, hback, run_append, run_append, run_append, run_append] at h
  exact run_ne p hp (by simp [hlength]) (List.length_take_le _ _) hwindow _ (run_inj p hp h)

end ShiftRegister
end CxxStd
