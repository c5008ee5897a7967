import Mathlib.Data.List.Sort

/-!
# Std.Sort

The contract of `std::sort`: a permutation of the input, in ascending order when the comparator
is a strict weak order. Elements the comparator does not tell apart come back in an order the
standard leaves open, so a program that sorts takes a `StdSort` and its theorems hold for each.
-/

namespace CxxStd

/-- `lt` is a strict weak order: asymmetric, and "not less" composes. -/
structure StrictWeak {α : Type} (lt : α → α → Bool) : Prop where
  asymm : ∀ {a b}, lt a b = true → lt b a = false
  notLt_trans : ∀ {a b c}, lt b a = false → lt c b = false → lt c a = false

structure StdSort where
  sort : {α : Type} → (α → α → Bool) → List α → List α
  perm : ∀ {α : Type} (lt : α → α → Bool) (l : List α), (sort lt l).Perm l
  sorted : ∀ {α : Type} (lt : α → α → Bool) (l : List α), StrictWeak lt →
    (sort lt l).Pairwise fun a b => lt b a = false

namespace StdSort

theorem mem_sort (s : StdSort) {α : Type} {lt : α → α → Bool} {l : List α} {a : α} :
    a ∈ s.sort lt l ↔ a ∈ l := (s.perm lt l).mem_iff

@[simp] theorem length_sort (s : StdSort) {α : Type} (lt : α → α → Bool) (l : List α) :
    (s.sort lt l).length = l.length := (s.perm lt l).length_eq

/-- Insertion sort meets the contract. -/
def insertion : StdSort where
  sort lt l := l.insertionSort fun a b => lt b a = false
  perm lt l := List.perm_insertionSort _ l
  sorted lt l h := by
    have htot : Std.Total fun a b => lt b a = false := ⟨fun a b => by
      cases hba : lt b a with
      | false => exact .inl rfl
      | true => exact .inr (h.asymm hba)⟩
    have htrans : IsTrans _ fun a b => lt b a = false := ⟨fun _ _ _ => h.notLt_trans⟩
    exact List.pairwise_insertionSort _ l

end StdSort

/-- Comparison by a natural-number key, the comparator of every key sort of the program. -/
def byKey {α : Type} (key : α → Nat) (a b : α) : Bool := key a < key b

theorem byKey_strictWeak {α : Type} (key : α → Nat) : StrictWeak (byKey key) where
  asymm h := by simp only [byKey, decide_eq_true_eq, decide_eq_false_iff_not] at *; omega
  notLt_trans h₁ h₂ := by simp only [byKey, decide_eq_false_iff_not] at *; omega

end CxxStd
