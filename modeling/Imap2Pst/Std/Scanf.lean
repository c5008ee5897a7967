import Imap2Pst.Std.Bytes

/-!
# Std.Scanf

The directives of `sscanf` the date scanners use, as POSIX specifies them. The result is the list
of the conversions that succeeded, so its length is what `sscanf` returns. An `int` has 32 bits, and
a number that does not fit in one is stored as the GNU C library stores it.
-/

namespace CxxStd

inductive Directive where
  | space
  | lit (c : Byte)
  | int (width : Option Nat)
  | word (width : Nat)
  | char
  deriving DecidableEq, Repr

inductive Field where
  | int (z : Int)
  | word (w : Bytes)
  | char (c : Byte)
  deriving DecidableEq, Repr

namespace Field

def toInt : Field → Int
  | int z => z
  | _ => 0

def toWord : Field → Bytes
  | word w => w
  | _ => []

def toChar : Field → Byte
  | char c => c
  | _ => 0

end Field

/-- What an `int` keeps of a number: 32 bits, in two's complement. -/
def wrapInt (z : Int) : Int := z.bmod (2 ^ 32)

def FitsInt (z : Int) : Prop := -2 ^ 31 ≤ z ∧ z < 2 ^ 31

/-- What the GNU C library stores in an `int` for a number it has read: `strtol` saturates. -/
def scanned (z : Int) : Int := wrapInt (max (-2 ^ 63) (min z (2 ^ 63 - 1)))

/-- The longest prefix of `s` of at most `width` octets that is a signed decimal number, and what
follows it. -/
def scanInt (width : Option Nat) (s : Bytes) : Option (Int × Bytes) :=
  let field := match width with
    | some w => s.take w
    | none => s
  let neg := field.head? = some 45
  let signed := neg || field.head? = some 43
  let ds := (if signed then field.tail else field).takeWhile isDigit
  if ds = [] then none
  else
    let v : Int := digitsVal ds
    some (if neg then -v else v, s.drop (ds.length + if signed then 1 else 0))

def atoi (s : Bytes) : Int :=
  match scanInt none (s.dropWhile isSpace) with
  | none => 0
  | some (z, _) => scanned z

/-- `sscanf(s, fmt, ...)`: the conversions made before the first one that fails. -/
def sscanf : List Directive → Bytes → List Field
  | [], _ => []
  | .space :: fmt, s => sscanf fmt (s.dropWhile isSpace)
  | .lit c :: fmt, s =>
    match s with
    | [] => []
    | d :: s => if d = c then sscanf fmt s else []
  | .int width :: fmt, s =>
    match scanInt width (s.dropWhile isSpace) with
    | none => []
    | some (z, s) => .int (scanned z) :: sscanf fmt s
  | .word width :: fmt, s =>
    let s := s.dropWhile isSpace
    let w := (s.take width).takeWhile fun c => !isSpace c
    if w = [] then [] else .word w :: sscanf fmt (s.drop w.length)
  | .char :: fmt, s =>
    match s with
    | [] => []
    | c :: s => .char c :: sscanf fmt s

/-! ## Numbers -/

theorem wrapInt_eq {z : Int} (hlow : -2 ^ 31 ≤ z) (hhigh : z < 2 ^ 31) : wrapInt z = z :=
  Int.bmod_eq_of_le (by omega) (by omega)

theorem fitsInt_wrapInt (z : Int) : FitsInt (wrapInt z) := by
  have hlow := @Int.le_bmod z (2 ^ 32) (by decide)
  have hhigh := @Int.bmod_lt z (2 ^ 32) (by decide)
  unfold FitsInt wrapInt
  omega

theorem wrapInt_eq_iff {z : Int} : wrapInt z = z ↔ FitsInt z :=
  ⟨fun h => h ▸ fitsInt_wrapInt z, fun h => wrapInt_eq h.1 h.2⟩

/-- Below the least `int` it wraps to the greatest ones. -/
theorem wrapInt_of_lt {z : Int} (hlow : -2 ^ 31 - 2 ^ 32 ≤ z) (hhigh : z < -2 ^ 31) :
    wrapInt z = z + 2 ^ 32 := by
  have hwrap : wrapInt (z + 2 ^ 32) = wrapInt z := @Int.add_bmod_right z (2 ^ 32)
  rw [← hwrap, wrapInt_eq (by omega) (by omega)]

theorem scanned_eq {n : Nat} (h : n < 2 ^ 31) : scanned n = n := by
  have hmin : max (-2 ^ 63) (min (n : Int) (2 ^ 63 - 1)) = n := by omega
  rw [scanned, hmin, wrapInt_eq (by omega) (by omega)]

theorem fitsInt_atoi (s : Bytes) : FitsInt (atoi s) := by
  unfold atoi
  split
  · exact ⟨by decide, by decide⟩
  · exact fitsInt_wrapInt _

/-! ## Directive by directive -/

theorem sscanf_blank (fmt : List Directive) (s : Bytes) :
    sscanf (.space :: fmt) s = sscanf fmt (s.dropWhile isSpace) := rfl

theorem sscanf_octet (c d : Byte) (fmt : List Directive) (s : Bytes) :
    sscanf (.lit c :: fmt) (d :: s) = if d = c then sscanf fmt s else [] := rfl

theorem sscanf_int (width : Option Nat) (fmt : List Directive) (s : Bytes) :
    sscanf (.int width :: fmt) s =
      match scanInt width (s.dropWhile isSpace) with
      | none => []
      | some (z, s) => .int (scanned z) :: sscanf fmt s := rfl

theorem sscanf_word (width : Nat) (fmt : List Directive) (s : Bytes) :
    sscanf (.word width :: fmt) s =
      let s := s.dropWhile isSpace
      let w := (s.take width).takeWhile fun c => !isSpace c
      if w = [] then [] else .word w :: sscanf fmt (s.drop w.length) := rfl

theorem sscanf_char (c : Byte) (fmt : List Directive) (s : Bytes) :
    sscanf (.char :: fmt) (c :: s) = .char c :: sscanf fmt s := rfl

/-- A number that was read fits in an `int`. -/
theorem fitsInt_sscanf {fmt : List Directive} {s : Bytes} {f : Field} (h : f ∈ sscanf fmt s) :
    FitsInt f.toInt := by
  have hzero : FitsInt 0 := ⟨by decide, by decide⟩
  induction fmt generalizing s with
  | nil => cases h
  | cons d fmt ih =>
    cases d with
    | space => exact ih h
    | lit c =>
      cases s with
      | nil => cases h
      | cons x s =>
        rw [sscanf_octet] at h
        split at h
        · exact ih h
        · cases h
    | int width =>
      rw [sscanf_int] at h
      split at h
      · cases h
      · rcases List.mem_cons.1 h with rfl | h
        · exact fitsInt_wrapInt _
        · exact ih h
    | word width =>
      rw [sscanf_word] at h
      dsimp only at h
      split at h
      · cases h
      · rcases List.mem_cons.1 h with rfl | h
        · exact hzero
        · exact ih h
    | char =>
      cases s with
      | nil => cases h
      | cons x s =>
        rcases List.mem_cons.1 h with rfl | h
        · exact hzero
        · exact ih h

end CxxStd
