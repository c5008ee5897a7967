import Imap2Pst.Std.Bytes

/-!
# Std.File

A file as a function from offsets to octets with a size. What lies between two writes and was
never written reads as zero.

* `write` / `read` — `pwrite`, `pread`.
* `read_write_of_disjoint` — the frame rule of a write.
* `writes` — writes one after the other; when no two meet, each is still there at the end.
-/

namespace CxxStd

structure File where
  size : Nat
  get : Nat → Byte

namespace File

def empty : File := ⟨0, fun _ => 0⟩

def write (f : File) (ib : Nat) (data : Bytes) : File where
  size := max f.size (ib + data.length)
  get a := if ib ≤ a then (data[a - ib]?).getD (f.get a) else f.get a

/-- The `n` octets from offset `ib` on. -/
def read (f : File) (ib n : Nat) : Bytes := (List.range n).map fun k => f.get (ib + k)

variable {f : File} {ib n : Nat} {data : Bytes}

@[simp] theorem read_length : (f.read ib n).length = n := by simp [read]

theorem getElem?_read {k : Nat} (h : k < n) : (f.read ib n)[k]? = some (f.get (ib + k)) := by
  simp [read, h]

theorem read_congr {g : File} (h : ∀ a, ib ≤ a → a < ib + n → f.get a = g.get a) :
    f.read ib n = g.read ib n := by
  unfold read
  apply List.map_congr_left
  intro k hk
  have hk := List.mem_range.1 hk
  exact h _ (by omega) (by omega)

theorem get_write_of_out {a : Nat} (h : a < ib ∨ ib + data.length ≤ a) :
    (f.write ib data).get a = f.get a := by
  simp only [write]
  split
  · rw [List.getElem?_eq_none (by omega)]
    rfl
  · rfl

theorem write_nil (h : ib ≤ f.size) : f.write ib [] = f := by
  unfold write
  simp only [List.length_nil, Nat.add_zero, List.getElem?_nil, Option.getD_none, ite_self,
    max_eq_left h]

theorem read_write_of_disjoint {at_ : Nat} (h : at_ + n ≤ ib ∨ ib + data.length ≤ at_) :
    (f.write ib data).read at_ n = f.read at_ n :=
  read_congr fun a ha ha' => get_write_of_out (by omega)

theorem read_write_self : (f.write ib data).read ib data.length = data := by
  apply List.ext_getElem?
  intro k
  by_cases hk : k < data.length
  · rw [getElem?_read hk]
    simp [write, hk]
  · rw [List.getElem?_eq_none (by simpa using hk), List.getElem?_eq_none (by omega)]

theorem read_append {m : Nat} : f.read ib (n + m) = f.read ib n ++ f.read (ib + n) m := by
  simp [read, List.range_add, Nat.add_assoc]

/-- A part of what was read. -/
theorem drop_take_read {off m : Nat} (h : off + m ≤ n) :
    ((f.read ib n).drop off).take m = f.read (ib + off) m := by
  obtain ⟨rest, rfl⟩ := Nat.exists_eq_add_of_le h
  rw [Nat.add_assoc, read_append, List.drop_left' (by simp), read_append,
    List.take_left' (by simp)]

/-- The middle of what was read. -/
theorem read_middle {a b c : Bytes} (h : f.read ib n = a ++ b ++ c) :
    f.read (ib + a.length) b.length = b := by
  have hlen : a.length + b.length ≤ n := by
    have := congrArg List.length h
    simp only [read_length, List.length_append] at this
    omega
  rw [← drop_take_read hlen, h, List.append_assoc, List.drop_left, List.take_left]

/-! ## Writes one after the other -/

/-- Two ranges of a file do not meet. -/
def Apart (a b : Nat × Nat) : Prop := a.1 + a.2 ≤ b.1 ∨ b.1 + b.2 ≤ a.1

theorem Apart.symm {a b : Nat × Nat} (h : Apart a b) : Apart b a := Or.symm h

/-- The range a write covers. -/
def extent (w : Nat × Bytes) : Nat × Nat := (w.1, w.2.length)

def writes (f : File) (ws : List (Nat × Bytes)) : File :=
  ws.foldl (fun f w => f.write w.1 w.2) f

theorem writes_append (f : File) (ws ws' : List (Nat × Bytes)) :
    f.writes (ws ++ ws') = (f.writes ws).writes ws' := List.foldl_append

theorem read_writes_of_apart {ws : List (Nat × Bytes)} (h : ∀ w ∈ ws, Apart (extent w) (ib, n)) :
    (f.writes ws).read ib n = f.read ib n := by
  induction ws generalizing f with
  | nil => rfl
  | cons w ws ih =>
    show ((f.write w.1 w.2).writes ws).read ib n = _
    rw [ih fun w' hw' => h w' (by simp [hw'])]
    exact read_write_of_disjoint (h w (by simp)).symm

theorem read_writes_self {ws : List (Nat × Bytes)}
    (h : ws.Pairwise fun a b => Apart (extent a) (extent b)) {w : Nat × Bytes} (hw : w ∈ ws) :
    (f.writes ws).read w.1 w.2.length = w.2 := by
  induction ws generalizing f with
  | nil => cases hw
  | cons w' ws ih =>
    obtain ⟨hfirst, hrest⟩ := List.pairwise_cons.1 h
    rcases List.mem_cons.1 hw with rfl | hw
    · show ((f.write w.1 w.2).writes ws).read w.1 w.2.length = _
      rw [read_writes_of_apart fun x hx => (hfirst x hx).symm, read_write_self]
    · exact ih hrest hw

theorem size_writes {ws : List (Nat × Bytes)} (h : ∀ w ∈ ws, w.1 + w.2.length ≤ f.size) :
    (f.writes ws).size = f.size := by
  induction ws generalizing f with
  | nil => rfl
  | cons w ws ih =>
    have hw : (f.write w.1 w.2).size = f.size := max_eq_left (h w (by simp))
    show ((f.write w.1 w.2).writes ws).size = f.size
    rw [ih fun w' hw' => by rw [hw]; exact h w' (by simp [hw']), hw]

end File

end CxxStd
