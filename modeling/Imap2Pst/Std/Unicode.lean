import Imap2Pst.Std.Bytes

/-!
# Std.Unicode

Texts as sequences of Unicode scalar values, and their two encodings.

* `utf16`    — the code units of a character.
* `utf8`     — the octets of a text.
* `utf8_inj` — a text is determined by its octets.
-/

namespace CxxStd

def utf16 (c : Char) : List Nat :=
  if c.toNat < 0x10000 then [c.toNat]
  else [0xD800 + (c.toNat - 0x10000) / 0x400, 0xDC00 + (c.toNat - 0x10000) % 0x400]

def utf8 (cs : List Char) : Bytes := cs.flatMap String.utf8EncodeChar

def ValidUtf8 (s : Bytes) : Prop := ∃ cs, s = utf8 cs

theorem char_range (c : Char) : c.toNat < 0xD800 ∨ 0xDFFF < c.toNat ∧ c.toNat < 0x110000 := c.valid

theorem utf16_lt {c : Char} {u : Nat} (h : u ∈ utf16 c) : u < 2 ^ 16 := by
  have hlt : c.toNat < 0x110000 := by
    obtain h | ⟨-, h⟩ := char_range c <;> omega
  unfold utf16 at h
  split at h
  · rw [List.mem_singleton] at h
    omega
  · have hhigh : (c.toNat - 0x10000) / 0x400 < 0x400 := by omega
    have hlow : (c.toNat - 0x10000) % 0x400 < 0x400 := Nat.mod_lt _ (by decide)
    rcases List.mem_pair.1 h with h | h
    · rw [h]
      exact Nat.lt_of_lt_of_le (Nat.add_lt_add_left hhigh _) (by decide)
    · rw [h]
      exact Nat.lt_of_lt_of_le (Nat.add_lt_add_left hlow _) (by decide)

@[simp] theorem utf8_nil : utf8 [] = [] := rfl

@[simp] theorem utf8_cons (c : Char) (cs : List Char) :
    utf8 (c :: cs) = String.utf8EncodeChar c ++ utf8 cs := List.flatMap_cons

@[simp] theorem utf8_append (cs ds : List Char) : utf8 (cs ++ ds) = utf8 cs ++ utf8 ds :=
  List.flatMap_append

theorem utf8_inj {cs ds : List Char} (h : utf8 cs = utf8 ds) : cs = ds := by
  have hbytes : cs.utf8Encode = ds.utf8Encode := congrArg List.toByteArray h
  have hdecoded := congrArg ByteArray.utf8Decode? hbytes
  rw [List.utf8Decode?_utf8Encode, List.utf8Decode?_utf8Encode, Option.some.injEq] at hdecoded
  exact List.toArray_inj hdecoded

theorem utf8_ne_nil {cs : List Char} (h : cs ≠ []) : utf8 cs ≠ [] := fun hnil =>
  h (@utf8_inj cs [] hnil)

theorem ValidUtf8.append {s t : Bytes} (hs : ValidUtf8 s) (ht : ValidUtf8 t) :
    ValidUtf8 (s ++ t) := by
  obtain ⟨cs, rfl⟩ := hs
  obtain ⟨ds, rfl⟩ := ht
  exact ⟨cs ++ ds, (utf8_append cs ds).symm⟩

theorem ValidUtf8.flatMap {α : Type} {xs : List α} {f : α → Bytes} (h : ∀ x ∈ xs, ValidUtf8 (f x)) :
    ValidUtf8 (xs.flatMap f) := by
  induction xs with
  | nil => exact ⟨[], rfl⟩
  | cons x xs ih =>
    rw [List.flatMap_cons]
    exact (h x List.mem_cons_self).append (ih fun y hy => h y (List.mem_cons_of_mem _ hy))

/-- ASCII is UTF-8. -/
theorem utf8EncodeChar_ofUInt8 {c : Byte} (h : c < 0x80) :
    String.utf8EncodeChar (Char.ofUInt8 c) = [c] := by
  have hlt : c.toNat < 0x80 := UInt8.lt_iff_toNat_lt.1 h
  have hle : (Char.ofUInt8 c).val.toNat ≤ 0x7f := by
    show c.toUInt32.toNat ≤ 0x7f
    rw [UInt8.toNat_toUInt32]
    omega
  rw [String.utf8EncodeChar, if_pos hle]
  show [c.toUInt32.toUInt8] = [c]
  rw [UInt8.toUInt8_toUInt32]

theorem validUtf8_of_ascii {s : Bytes} (h : ∀ c ∈ s, c < 0x80) : ValidUtf8 s := by
  have hone : s = s.flatMap fun c => [c] := by simp
  rw [hone]
  refine ValidUtf8.flatMap fun c hc => ⟨[Char.ofUInt8 c], ?_⟩
  rw [utf8_cons, utf8_nil, List.append_nil, utf8EncodeChar_ofUInt8 (h c hc)]

end CxxStd
