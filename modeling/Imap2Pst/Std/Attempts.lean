import Imap2Pst.Std.Machine

/-!
# Std.Attempts

Calls whose exceptions are caught by a caller that goes on with the same object.

* `tryEach` — a run of such calls; `none` stands for a call that threw.
* `AtEach` — what holds of every call of the run and the state it meets.
* `tryEach_rule` — the invariant rule; `exists_first_of_not_atEach` — the first call that breaks
  a condition.
-/

namespace CxxStd

variable {ε σ α β : Type}

/-- A call, its exception caught. The state stays as the exception left it. -/
def attempt (x : EStateM ε σ β) (s : σ) : Option β × σ :=
  match x s with
  | .ok b s' => (some b, s')
  | .error _ s' => (none, s')

def tryEach (f : α → EStateM ε σ β) : List α → σ → List (Option β) × σ
  | [], s => ([], s)
  | a :: as, s =>
    let (b, s') := attempt (f a) s
    let (bs, s'') := tryEach f as s'
    (b :: bs, s'')

def AtEach (P : α → σ → Prop) (f : α → EStateM ε σ β) : List α → σ → Prop
  | [], _ => True
  | a :: as, s => P a s ∧ AtEach P f as (attempt (f a) s).2

variable {f : α → EStateM ε σ β} {P : α → σ → Prop} {as as' : List α} {s : σ}

theorem attempt_eq_some {x : EStateM ε σ β} {b : β} {s' : σ} :
    attempt x s = (some b, s') ↔ x s = .ok b s' := by
  unfold attempt
  cases x s with
  | ok c t => simp
  | error e t => simp

theorem attempt_eq_none {x : EStateM ε σ β} {s' : σ} :
    attempt x s = (none, s') ↔ ∃ e, x s = .error e s' := by
  unfold attempt
  cases x s with
  | ok c t => simp
  | error e t => simp

theorem bind_eq_error {γ : Type} {x : EStateM ε σ β} {g : β → EStateM ε σ γ} {s'' : σ} {e : ε} :
    (x >>= g) s = .error e s'' ↔
      x s = .error e s'' ∨ ∃ b s', x s = .ok b s' ∧ g b s' = .error e s'' := by
  show (EStateM.bind x g) s = _ ↔ _
  unfold EStateM.bind
  cases h : x s with
  | ok b s' => simp
  | error e' s' => simp

theorem ite_eq_error {c : Prop} [Decidable c] {x y : EStateM ε σ β} {s' : σ} {e : ε} :
    (if c then x else y) s = .error e s' ↔
      (c ∧ x s = .error e s') ∨ (¬c ∧ y s = .error e s') := by
  split
  · rename_i h
    simp [h]
  · rename_i h
    simp [h]

theorem onto_eq_error {τ : Type} {part : τ → σ} {put : σ → τ → τ} {x : EStateM ε σ β} {t t' : τ}
    {e : ε} : onto part put x t = .error e t' ↔
      ∃ s, x (part t) = .error e s ∧ t' = put s t := by
  unfold onto
  cases h : x (part t) with
  | ok b s => simp
  | error e' s => simp [eq_comm]

theorem tryEach_append (f : α → EStateM ε σ β) (as as' : List α) (s : σ) :
    tryEach f (as ++ as') s =
      ((tryEach f as s).1 ++ (tryEach f as' (tryEach f as s).2).1,
        (tryEach f as' (tryEach f as s).2).2) := by
  induction as generalizing s with
  | nil => rfl
  | cons a as ih =>
    have hcons (l : List α) : tryEach f (a :: l) s =
        ((attempt (f a) s).1 :: (tryEach f l (attempt (f a) s).2).1,
          (tryEach f l (attempt (f a) s).2).2) := rfl
    rw [List.cons_append, hcons, hcons, ih]
    rfl

theorem AtEach.right (h : AtEach P f (as ++ as') s) : AtEach P f as' (tryEach f as s).2 := by
  induction as generalizing s with
  | nil => exact h
  | cons a as ih => exact ih h.2

/-- The invariant rule: `I` speaks of the calls made, their results and the state. -/
theorem tryEach_rule {I : List α → List (Option β) → σ → Prop}
    (hstep : ∀ {done results a s}, P a s → I done results s →
      I (done ++ [a]) (results ++ [(attempt (f a) s).1]) (attempt (f a) s).2)
    (h0 : I [] [] s) (hall : AtEach P f as s) : I as (tryEach f as s).1 (tryEach f as s).2 := by
  suffices h : ∀ (rest done : List α) (results : List (Option β)) (s : σ), I done results s →
      AtEach P f rest s →
        I (done ++ rest) (results ++ (tryEach f rest s).1) (tryEach f rest s).2 from
    h as [] [] s h0 hall
  intro rest
  induction rest with
  | nil =>
    intro done results s hi _
    simpa [tryEach] using hi
  | cons a rest ih =>
    intro done results s hi hall
    have hnext := ih _ _ _ (hstep hall.1 hi) hall.2
    simpa [tryEach] using hnext

/-- The first call that does not meet the condition. -/
theorem exists_first_of_not_atEach (h : ¬AtEach P f as s) :
    ∃ done a rest, as = done ++ a :: rest ∧ AtEach P f done s ∧ ¬P a (tryEach f done s).2 := by
  induction as generalizing s with
  | nil => exact absurd trivial h
  | cons a as ih =>
    by_cases ha : P a s
    · obtain ⟨done, a', rest, rfl, hdone, ha'⟩ := ih fun has => h ⟨ha, has⟩
      exact ⟨a :: done, a', rest, rfl, ⟨ha, hdone⟩, ha'⟩
    · exact ⟨[], a, as, rfl, trivial, ha⟩

end CxxStd
