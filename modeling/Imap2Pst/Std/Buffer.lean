import Imap2Pst.Std.Bytes

/-!
# Std.Buffer

A buffer of fixed size that is filled in place.

`poke` copies octets over part of a buffer, as `memcpy(buf + off, data, n)` does inside it; `slice`
reads them back.
-/

namespace CxxStd

def poke (buf : Bytes) (off : Nat) (data : Bytes) : Bytes :=
  buf.take off ++ data ++ buf.drop (off + data.length)

@[simp] theorem poke_nil (buf : Bytes) (off : Nat) : poke buf off [] = buf := by
  simp [poke]

theorem poke_length {buf data : Bytes} {off : Nat} (h : off + data.length ≤ buf.length) :
    (poke buf off data).length = buf.length := by
  simp only [poke, List.length_append, List.length_take, List.length_drop]
  omega

/-- Octets written into the part of a buffer that is still clear. -/
theorem poke_clear {front data : Bytes} {off n : Nat} (hfront : front.length ≤ off)
    (hfit : off + data.length ≤ front.length + n) :
    poke (front ++ List.replicate n 0) off data =
      front ++ List.replicate (off - front.length) 0 ++ data ++
        List.replicate (front.length + n - (off + data.length)) 0 := by
  have hclear : off - front.length ≤ n := by omega
  rw [poke, List.take_append, List.drop_append, List.take_of_length_le hfront,
    List.drop_eq_nil_of_le (by omega), List.take_replicate, List.drop_replicate,
    Nat.min_eq_left hclear, List.nil_append]
  congr 2
  omega

/-- Octets written right behind what a buffer holds. -/
theorem poke_behind (front : Bytes) {data : Bytes} {n : Nat} (hfit : data.length ≤ n) :
    poke (front ++ List.replicate n 0) front.length data =
      front ++ data ++ List.replicate (n - data.length) 0 := by
  rw [poke_clear le_rfl (by omega), Nat.sub_self, List.replicate_zero, List.append_nil]
  congr 2
  omega

/-- Octets read back from between others. -/
theorem slice_of_split {buf a b c : Bytes} {off : Nat} (h : buf = a ++ (b ++ c))
    (hoff : a.length = off) : slice buf off b.length = b := by
  rw [slice, h, List.drop_left' hoff, List.take_left]

/-- What was written reads back. -/
theorem slice_poke {buf data : Bytes} {off : Nat} (h : off + data.length ≤ buf.length) :
    slice (poke buf off data) off data.length = data := by
  have hoff : (buf.take off).length = off := by
    rw [List.length_take]
    omega
  exact slice_of_split (List.append_assoc _ _ _) hoff

/-- Elsewhere nothing changes. -/
theorem getElem?_poke_of_out {buf data : Bytes} {off i : Nat} (h : off + data.length ≤ buf.length)
    (hi : i < off ∨ off + data.length ≤ i) : (poke buf off data)[i]? = buf[i]? := by
  have hoff : (buf.take off).length = off := by
    rw [List.length_take]
    omega
  rcases hi with hi | hi
  · rw [poke, List.append_assoc, List.getElem?_append_left (by omega), List.getElem?_take_of_lt hi]
  · rw [poke, List.getElem?_append_right (by rw [List.length_append]; omega), List.getElem?_drop,
      List.length_append, hoff]
    congr 1
    omega

theorem slice_congr {buf buf' : Bytes} {off n : Nat}
    (h : ∀ i, off ≤ i → i < off + n → buf[i]? = buf'[i]?) : slice buf off n = slice buf' off n := by
  apply List.ext_getElem?
  intro i
  simp only [slice, List.getElem?_take, List.getElem?_drop]
  split
  · exact h _ (by omega) (by omega)
  · rfl

theorem slice_poke_of_apart {buf data : Bytes} {off off' n : Nat}
    (h : off + data.length ≤ buf.length) (hapart : off' + n ≤ off ∨ off + data.length ≤ off') :
    slice (poke buf off data) off' n = slice buf off' n :=
  slice_congr fun _ hle hlt => getElem?_poke_of_out h (by omega)

theorem slice_length {buf : Bytes} {off n : Nat} (h : off + n ≤ buf.length) :
    (slice buf off n).length = n := by
  simp only [slice, List.length_take, List.length_drop]
  omega

end CxxStd
