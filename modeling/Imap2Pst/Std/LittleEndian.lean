import Imap2Pst.Std.Bytes
import Mathlib.Tactic.Ring

/-!
# Std.LittleEndian

Fixed-width little-endian numbers, least significant octet first, as a binary format stores them.

* `le w n` — the low `w` octets of `n`.
* `fromLe` — the number a run of octets stands for.
-/

namespace CxxStd

def le : Nat → Nat → Bytes
  | 0, _ => []
  | w + 1, n => n.toUInt8 :: le w (n / 256)

def fromLe : Bytes → Nat
  | [] => 0
  | b :: bs => b.toNat + 256 * fromLe bs

@[simp] theorem le_length (w n : Nat) : (le w n).length = w := by
  induction w generalizing n with
  | zero => rfl
  | succ w ih => simp [le, ih]

theorem fromLe_le (w n : Nat) : fromLe (le w n) = n % 256 ^ w := by
  induction w generalizing n with
  | zero => simp [le, fromLe, Nat.mod_one]
  | succ w ih =>
    have hbyte : n.toUInt8.toNat = n % 256 := by simp
    rw [le, fromLe, ih, hbyte, pow_succ', Nat.mod_mul]

theorem fromLe_le_of_lt {w n : Nat} (h : n < 256 ^ w) : fromLe (le w n) = n := by
  rw [fromLe_le, Nat.mod_eq_of_lt h]

theorem fromLe_lt (bs : Bytes) : fromLe bs < 256 ^ bs.length := by
  induction bs with
  | nil => simp [fromLe]
  | cons b bs ih =>
    have hb : b.toNat < 256 := b.toNat_lt
    rw [fromLe, List.length_cons, pow_succ]
    omega

theorem le_fromLe (bs : Bytes) : le bs.length (fromLe bs) = bs := by
  induction bs with
  | nil => rfl
  | cons b bs ih =>
    have hb : b.toNat < 256 := b.toNat_lt
    have hlow : (b.toNat + 256 * fromLe bs).toUInt8 = b := by
      apply UInt8.toNat_inj.1
      rw [UInt8.toNat_ofNat']
      omega
    have hrest : (b.toNat + 256 * fromLe bs) / 256 = fromLe bs := by omega
    rw [fromLe, List.length_cons, le, hlow, hrest, ih]

end CxxStd
