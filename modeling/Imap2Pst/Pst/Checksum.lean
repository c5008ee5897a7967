import Mathlib.Data.BitVec
import Imap2Pst.Std.ShiftRegister
import Imap2Pst.Pst.Format

/-!
# Pst.Checksum

The table-driven checksum of `pst/crc.cpp` is the bit-serial one.

* `messageBits`         — the message as it is fed: octet by octet, least significant bit first.
* `computeCrcFrom_run`  — one lookup per octet does what the register does in eight steps.
* `computeCrcFrom_spec` — the function is the register, composes, is linear and tells apart
  strings that differ only within 32 consecutive bits.
-/

namespace Imap2Pst
namespace Pst

open CxxStd

/-- The reflected polynomial of the register. -/
def polynomial : BitVec 32 := 0xEDB88320

/-- An octet, least significant bit first. -/
def byteBits (b : Byte) : List Bool := (List.range 8).map b.toBitVec.getLsbD

def messageBits (data : Bytes) : List Bool := data.flatMap byteBits

/-! ## The message -/

@[simp] theorem byteBits_length (b : Byte) : (byteBits b).length = 8 := by simp [byteBits]

theorem getD_byteBits (b : Byte) (i : Nat) : (byteBits b).getD i false = b.toBitVec.getLsbD i := by
  by_cases hi : i < 8
  · simp [byteBits, hi]
  · have hout : b.toBitVec.getLsbD i = false := BitVec.getLsbD_of_ge _ _ (Nat.le_of_not_lt hi)
    simp [byteBits, hi, hout]

theorem byteBits_inj {b c : Byte} (h : byteBits b = byteBits c) : b = c := by
  refine UInt8.toBitVec_inj.1 (BitVec.eq_of_getLsbD_eq fun i _ => ?_)
  rw [← getD_byteBits, h, getD_byteBits]

theorem byteBits_xor (b c : Byte) :
    byteBits (b ^^^ c) = List.zipWith (· ^^ ·) (byteBits b) (byteBits c) := by
  refine List.ext_getElem (by simp) fun i _ _ => ?_
  simp [byteBits]

/-- The octet in the register: its bits are the low ones. -/
theorem ofBits_byteBits (b : Byte) :
    (ShiftRegister.ofBits (byteBits b) : BitVec 32) = b.toUInt32.toBitVec := by
  refine BitVec.eq_of_getLsbD_eq fun i hi => ?_
  rw [ShiftRegister.getLsbD_ofBits, getD_byteBits, UInt8.toBitVec_toUInt32,
    BitVec.getLsbD_setWidth]

theorem messageBits_cons (b : Byte) (data : Bytes) :
    messageBits (b :: data) = byteBits b ++ messageBits data := List.flatMap_cons

theorem messageBits_length (data : Bytes) : (messageBits data).length = 8 * data.length := by
  induction data with
  | nil => rfl
  | cons b data ih =>
    rw [messageBits_cons, List.length_append, ih, byteBits_length, List.length_cons]
    omega

theorem messageBits_inj {a b : Bytes} (hlength : a.length = b.length)
    (h : messageBits a = messageBits b) : a = b := by
  induction a generalizing b with
  | nil => exact (List.length_eq_zero_iff.1 hlength.symm).symm
  | cons x a ih =>
    cases b with
    | nil => cases hlength
    | cons y b =>
      rw [messageBits_cons, messageBits_cons] at h
      obtain ⟨hfirst, hrest⟩ := List.append_inj h (by simp)
      rw [byteBits_inj hfirst, ih (Nat.succ.inj hlength) hrest]

theorem messageBits_xor {a b : Bytes} (hlength : a.length = b.length) :
    messageBits (List.zipWith (· ^^^ ·) a b)
      = List.zipWith (· ^^ ·) (messageBits a) (messageBits b) := by
  induction a generalizing b with
  | nil => rfl
  | cons x a ih =>
    cases b with
    | nil => cases hlength
    | cons y b =>
      rw [List.zipWith_cons_cons, messageBits_cons, messageBits_cons, messageBits_cons,
        List.zipWith_append (by simp), byteBits_xor, ih (Nat.succ.inj hlength)]

/-! ## The table -/

/-- One pass of the loop that builds the table is one step of the register. -/
theorem crcStep_shift (c : UInt32) :
    (crcStep c).toBitVec = ShiftRegister.shift polynomial c.toBitVec := by
  have hbit : c &&& 1 = 1 ↔ c.toBitVec.getLsbD 0 = true := by
    rw [← UInt32.toNat_inj, UInt32.toNat_and, UInt32.toNat_one, Nat.and_one_is_mod,
      BitVec.getLsbD, Nat.testBit_zero, decide_eq_true_iff]
    rfl
  rw [crcStep, ShiftRegister.shift, apply_ite UInt32.toBitVec, UInt32.toBitVec_xor,
    UInt32.toBitVec_shiftRight]
  simp only [hbit]
  rfl

theorem crcStep_iterate (k : Nat) (c : UInt32) :
    (crcStep^[k] c).toBitVec = (ShiftRegister.shift polynomial)^[k] c.toBitVec :=
  (Function.Semiconj.iterate_right crcStep_shift k) c

theorem kTable_get (x : UInt32) : kTable.getD (x &&& 0xFF).toNat 0 = crcStep^[8] (x &&& 0xFF) := by
  have hlt : (x &&& 0xFF).toNat < 256 := by
    rw [UInt32.toNat_and]
    exact Nat.lt_succ_of_le Nat.and_le_right
  rw [kTable, makeTable, Array.getD_eq_getD_getElem?, Array.getElem?_map,
    Array.getElem?_range, if_pos hlt]
  simp

theorem getLsbD_octetMask (i : Nat) : (0xFF#32).getLsbD i = decide (i < 8) := by
  rw [BitVec.getLsbD_ofNat, Nat.testBit_two_pow_sub_one 8 i]
  by_cases hi : i < 8
  · simp [hi, Nat.lt_trans hi (by decide : 8 < 32)]
  · simp [hi]

/-- One lookup is eight steps of the register. -/
theorem crcByte_run (crc : UInt32) (b : Byte) :
    (kTable.getD ((crc ^^^ b.toUInt32) &&& 0xFF).toNat 0 ^^^ crc >>> 8).toBitVec
      = ShiftRegister.run polynomial crc.toBitVec (byteBits b) := by
  have hlow (x : BitVec 32) : ∀ i < 8, (x &&& 0xFF#32).getLsbD i = x.getLsbD i := by
    intro i hi
    rw [BitVec.getLsbD_and, getLsbD_octetMask, decide_eq_true hi, Bool.and_true]
  have hhigh (x : BitVec 32) : (x &&& 0xFF#32) >>> 8 = 0#32 := by
    refine BitVec.eq_of_getLsbD_eq fun i _ => ?_
    rw [BitVec.getLsbD_ushiftRight, BitVec.getLsbD_and, getLsbD_octetMask,
      decide_eq_false (by omega), Bool.and_false, BitVec.getLsbD_zero]
  have hoctet : b.toUInt32.toBitVec >>> 8 = 0#32 := by
    refine BitVec.eq_of_getLsbD_eq fun i _ => ?_
    rw [BitVec.getLsbD_ushiftRight, UInt8.toBitVec_toUInt32, BitVec.getLsbD_setWidth,
      BitVec.getLsbD_of_ge b.toBitVec _ (Nat.le_add_right _ _), Bool.and_false,
      BitVec.getLsbD_zero]
  rw [ShiftRegister.run_eq polynomial (by simp), ofBits_byteBits, byteBits_length,
    ShiftRegister.iterate_eq polynomial (hlow _) (hhigh _), BitVec.ushiftRight_xor_distrib, hoctet,
    BitVec.xor_zero, kTable_get, UInt32.toBitVec_xor, crcStep_iterate]
  rfl

theorem computeCrcFrom_run (seed : UInt32) (data : Bytes) :
    (computeCrcFrom seed data).toBitVec
      = ShiftRegister.run polynomial seed.toBitVec (messageBits data) := by
  induction data generalizing seed with
  | nil => rfl
  | cons b data ih =>
    rw [messageBits_cons, ShiftRegister.run_append, ← crcByte_run]
    exact ih _

/-- For every seed and every string the function is the register, started at the seed and not
inverted. It composes and is linear, and it tells apart any two strings of one length that differ
only within 32 consecutive bits. -/
theorem computeCrcFrom_spec :
    (∀ (seed : UInt32) (data : Bytes), (computeCrcFrom seed data).toBitVec
      = ShiftRegister.run polynomial seed.toBitVec (messageBits data)) ∧
    (∀ (seed : UInt32) (a b : Bytes),
      computeCrcFrom seed (a ++ b) = computeCrcFrom (computeCrcFrom seed a) b) ∧
    (∀ (s t : UInt32) (a b : Bytes), a.length = b.length →
      computeCrcFrom (s ^^^ t) (List.zipWith (· ^^^ ·) a b)
        = computeCrcFrom s a ^^^ computeCrcFrom t b) ∧
    (∀ (seed : UInt32) (a b : Bytes) (i : Nat), a.length = b.length → a ≠ b →
      (∀ j, j < i ∨ i + 32 ≤ j → (messageBits a)[j]? = (messageBits b)[j]?) →
      computeCrcFrom seed a ≠ computeCrcFrom seed b) := by
  refine ⟨computeCrcFrom_run, fun seed a b => List.foldl_append, ?_, ?_⟩
  · intro s t a b hlength
    refine UInt32.toBitVec_inj.1 ?_
    have hbits : (messageBits a).length = (messageBits b).length := by
      rw [messageBits_length, messageBits_length, hlength]
    rw [UInt32.toBitVec_xor, computeCrcFrom_run, computeCrcFrom_run, computeCrcFrom_run,
      UInt32.toBitVec_xor, messageBits_xor hlength, ShiftRegister.run_xor _ _ _ hbits]
  · intro seed a b i hlength hne hsame h
    have hbits : (messageBits a).length = (messageBits b).length := by
      rw [messageBits_length, messageBits_length, hlength]
    have hdiffer : messageBits a ≠ messageBits b := fun heq => hne (messageBits_inj hlength heq)
    have hrun := congrArg UInt32.toBitVec h
    rw [computeCrcFrom_run, computeCrcFrom_run] at hrun
    exact ShiftRegister.run_ne_of_window polynomial (by decide) hbits hdiffer hsame _ hrun

/-- A damaged octet is found, whatever stands in front of the window. -/
theorem damage_found : computeCrc [9, 1, 2, 3, 4] ≠ computeCrc [9, 1, 2, 7, 4] := by
  have hne := computeCrcFrom_spec.2.2.2 0 [9, 1, 2, 3, 4] [9, 1, 2, 7, 4] 8 rfl (by decide) (by
    rintro j (hj | hj)
    · have hfront (data : Bytes) : (messageBits (9 :: data))[j]? = (byteBits 9)[j]? := by
        rw [messageBits_cons, List.getElem?_append_left hj]
      rw [hfront, hfront]
    · rw [List.getElem?_eq_none hj, List.getElem?_eq_none hj])
  exact fun h => hne (UInt32.toNat_inj.1 h)

end Pst
end Imap2Pst
