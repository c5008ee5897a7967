import Imap2Pst.Std.Bytes

/-!
# Std.Regroup

Numbers written in a fixed number of digits, one after the other, and the digits cut up anew in
groups of another size.

* `fixedDigits_concat` — the digits of two numbers side by side are those of one number.
* `fromDigits`         — the number a group of digits stands for.
* `exists_groups`      — any run of digits is whole groups and a remainder.
-/

namespace CxxStd

variable {b : Nat}

theorem fixedDigits_add (v w n : Nat) :
    fixedDigits b (v + w) n = fixedDigits b v (n / b ^ w) ++ fixedDigits b w n := by
  induction w generalizing n with
  | zero => simp [fixedDigits]
  | succ w ih =>
    rw [Nat.add_succ, fixedDigits, ih, fixedDigits, Nat.div_div_eq_div_mul, ← Nat.pow_succ',
      List.append_assoc]

theorem fixedDigits_mod {w : Nat} (v n : Nat) (h : w ≤ v) :
    fixedDigits b w (n % b ^ v) = fixedDigits b w n := by
  induction w generalizing n v with
  | zero => rfl
  | succ w ih =>
    obtain ⟨v, rfl⟩ : ∃ k, v = k + 1 := ⟨v - 1, by omega⟩
    have hdiv : n % b ^ (v + 1) / b = n / b % b ^ v := by
      rw [Nat.pow_succ', Nat.mod_mul_right_div_self]
    have hmod : n % b ^ (v + 1) % b = n % b := Nat.mod_mod_of_dvd n (Dvd.intro_left _ rfl)
    rw [fixedDigits, hdiv, hmod, ih v _ (Nat.le_of_succ_le_succ h)]
    rfl

theorem fixedDigits_concat {w y : Nat} (v x : Nat) (hy : y < b ^ w) :
    fixedDigits b (v + w) (x * b ^ w + y) = fixedDigits b v x ++ fixedDigits b w y := by
  have hpos : 0 < b ^ w := Nat.zero_lt_of_lt hy
  have hdiv : (x * b ^ w + y) / b ^ w = x := by
    rw [Nat.mul_comm, Nat.mul_add_div hpos, Nat.div_eq_of_lt hy, Nat.add_zero]
  have hmod : fixedDigits b w (x * b ^ w + y) = fixedDigits b w y := by
    rw [← fixedDigits_mod w _ (le_refl w), Nat.mul_comm, Nat.mul_add_mod, Nat.mod_eq_of_lt hy]
  rw [fixedDigits_add, hdiv, hmod]

/-- The number a run of digits stands for, most significant first. -/
def fromDigits (b : Nat) (ds : List Nat) : Nat := ds.foldl (fun n d => n * b + d) 0

theorem fromDigits_concat (ds : List Nat) (d : Nat) :
    fromDigits b (ds ++ [d]) = fromDigits b ds * b + d := by
  simp [fromDigits]

theorem fromDigits_lt {ds : List Nat} (h : ∀ d ∈ ds, d < b) : fromDigits b ds < b ^ ds.length := by
  induction ds using List.reverseRecOn with
  | nil => exact Nat.one_pos
  | append_singleton ds d ih =>
    have hds := ih fun x hx => h x (List.mem_append_left _ hx)
    have hd := h d (List.mem_append_right _ (List.mem_singleton_self d))
    rw [fromDigits_concat, List.length_append, List.length_singleton, Nat.pow_succ]
    have hle : (fromDigits b ds + 1) * b ≤ b ^ ds.length * b := Nat.mul_le_mul_right b hds
    rw [Nat.add_mul, Nat.one_mul] at hle
    omega

theorem fixedDigits_fromDigits {ds : List Nat} (h : ∀ d ∈ ds, d < b) :
    fixedDigits b ds.length (fromDigits b ds) = ds := by
  induction ds using List.reverseRecOn with
  | nil => rfl
  | append_singleton ds d ih =>
    have hds := ih fun x hx => h x (List.mem_append_left _ hx)
    have hd := h d (List.mem_append_right _ (List.mem_singleton_self d))
    have hone : fixedDigits b 1 d = [d] := by
      simp [fixedDigits, Nat.mod_eq_of_lt hd]
    have hconcat := fixedDigits_concat (w := 1) ds.length (fromDigits b ds) (by rwa [Nat.pow_one])
    rw [Nat.pow_one, hds, hone] at hconcat
    rw [fromDigits_concat, List.length_append, List.length_singleton, hconcat]

theorem fromDigits_fixedDigits {w n : Nat} (hb : 0 < b) (hn : n < b ^ w) :
    fromDigits b (fixedDigits b w n) = n := by
  have hdigits : ∀ d ∈ fixedDigits b w n, d < b := fun d hd => mem_fixedDigits_lt hb hd
  have hlt := fromDigits_lt hdigits
  have heq := fixedDigits_fromDigits hdigits
  rw [fixedDigits_length] at hlt heq
  exact fixedDigits_inj hlt hn heq

/-- Whole groups of `w` digits, and fewer than `w` at the end. -/
theorem exists_groups {w : Nat} (hw : 0 < w) (ds : List Nat) (h : ∀ d ∈ ds, d < b) :
    ∃ (ns rest : List Nat), ds = ns.flatMap (fixedDigits b w) ++ rest ∧ rest.length < w ∧
      ∀ n ∈ ns, n < b ^ w := by
  by_cases hlen : ds.length < w
  · exact ⟨[], ds, rfl, hlen, fun n hn => absurd hn List.not_mem_nil⟩
  · have hlength : (ds.take w).length = w := by rw [List.length_take]; omega
    have htake : ∀ d ∈ ds.take w, d < b := fun d hd => h d (List.mem_of_mem_take hd)
    have hfirst := fixedDigits_fromDigits htake
    have hlt := fromDigits_lt htake
    rw [hlength] at hfirst hlt
    have hshort : (ds.drop w).length < ds.length := by rw [List.length_drop]; omega
    obtain ⟨ns, rest, hrest, hrlen, hns⟩ := exists_groups hw (ds.drop w)
      fun d hd => h d (List.mem_of_mem_drop hd)
    refine ⟨fromDigits b (ds.take w) :: ns, rest, ?_, hrlen, ?_⟩
    · rw [List.flatMap_cons, hfirst, List.append_assoc, ← hrest, List.take_append_drop]
    · intro n hn
      rcases List.mem_cons.1 hn with rfl | hn
      · exact hlt
      · exact hns n hn
termination_by ds.length

end CxxStd
