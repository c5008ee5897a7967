/-!
# Std.Reply

What a C++ call can do: return, throw, or never come back.
-/

namespace CxxStd

inductive Reply (ε α : Type) where
  | ok (a : α)
  | throws (e : ε)
  | hangs
  deriving DecidableEq, Repr

namespace Reply

variable {ε α β : Type}

def bind (r : Reply ε α) (f : α → Reply ε β) : Reply ε β :=
  match r with
  | .ok a => f a
  | .throws e => .throws e
  | .hangs => .hangs

def map (f : α → β) (r : Reply ε α) : Reply ε β := r.bind fun a => .ok (f a)

@[simp] theorem bind_ok (a : α) (f : α → Reply ε β) : (ok a : Reply ε α).bind f = f a := rfl
@[simp] theorem bind_throws (e : ε) (f : α → Reply ε β) : (throws e).bind f = throws e := rfl
@[simp] theorem bind_hangs (f : α → Reply ε β) : (hangs : Reply ε α).bind f = hangs := rfl
@[simp] theorem map_ok (a : α) (f : α → β) : (ok a : Reply ε α).map f = ok (f a) := rfl

/-- A bind returns exactly when both halves do. -/
theorem bind_eq_ok {r : Reply ε α} {f : α → Reply ε β} {b : β} :
    r.bind f = ok b ↔ ∃ a, r = ok a ∧ f a = ok b := by
  cases r <;> simp

theorem map_eq_ok {r : Reply ε α} {f : α → β} {b : β} :
    r.map f = ok b ↔ ∃ a, r = ok a ∧ f a = b := by
  cases r <;> simp [map]

/-- A loop over a list whose body may throw or hang. -/
def mapM (f : α → Reply ε β) : List α → Reply ε (List β)
  | [] => ok []
  | a :: as => (f a).bind fun b => (mapM f as).map (b :: ·)

theorem mapM_map {γ : Type} (f : α → Reply ε β) (g : γ → α) (l : List γ) :
    mapM f (l.map g) = mapM (f ∘ g) l := by
  induction l with
  | nil => rfl
  | cons c l ih => simp only [List.map_cons, mapM, ih]; rfl

theorem mapM_ok {f : α → Reply ε β} {g : α → β} {l : List α} (h : ∀ a ∈ l, f a = ok (g a)) :
    mapM f l = ok (l.map g) := by
  induction l with
  | nil => rfl
  | cons a l ih =>
    rw [mapM, h a (by simp), bind_ok, ih fun b hb => h b (by simp [hb])]
    rfl

theorem mapM_returns {f : α → Reply ε β} {l : List α} (h : ∀ a ∈ l, ∃ b, f a = ok b) :
    ∃ bs, mapM f l = ok bs := by
  induction l with
  | nil => exact ⟨[], rfl⟩
  | cons a l ih =>
    obtain ⟨b, hb⟩ := h a (by simp)
    obtain ⟨bs, hbs⟩ := ih fun a' ha' => h a' (by simp [ha'])
    refine ⟨b :: bs, ?_⟩
    rw [mapM, hb, bind_ok, hbs]
    rfl

/-- A loop with a cursor. A pass takes the cursor where `next` says; where it says nothing, the
loop returns. When every pass moves the cursor forward, and never past `bound`, the loop ends. -/
theorem loop_returns {σ : Type} (run : Nat → Nat → σ → Reply ε β) (next : Nat → Option Nat)
    (P : Nat → Prop) (bound : Nat)
    (hend : ∀ fuel i s, next i = none → ∃ b, run (fuel + 1) i s = ok b)
    (hpass : ∀ fuel i j s, next i = some j → ∃ s', run (fuel + 1) i s = run fuel j s')
    (hmove : ∀ i j, P i → next i = some j → P j ∧ i < j ∧ j ≤ bound) {fuel i : Nat} (s : σ)
    (hi : P i) (hle : i ≤ bound) (hfuel : bound < i + fuel) : ∃ b, run fuel i s = ok b := by
  induction fuel generalizing i s with
  | zero => omega
  | succ fuel ih =>
    cases hnext : next i with
    | none => exact hend fuel i s hnext
    | some j =>
      obtain ⟨hj, hlt, hle'⟩ := hmove i j hi hnext
      obtain ⟨s', hrun⟩ := hpass fuel i j s hnext
      rw [hrun]
      exact ih s' hj hle' (by omega)

end Reply

end CxxStd
