import Imap2Pst.Std.Attempts

/-!
# Std.Outcomes

Where a call drives the state, whether it returns or throws.

* `Drives R E` — every return moves the state along `R`, every exception along `E`.
* `Escapes` — what sequencing asks of the two relations; the rules of sequencing, loops and calls
  on a part of the state, for any such pair.
-/

namespace CxxStd

variable {ε σ τ α β : Type}

/-- From `s`, a return of `x` moves the state along `R`, an exception along `E`. -/
structure DrivesFrom (R E : σ → σ → Prop) (s : σ) (x : EStateM ε σ α) : Prop where
  returns : ∀ a s', x s = .ok a s' → R s s'
  throws : ∀ e s', x s = .error e s' → E s s'

/-- From any state. -/
def Drives (R E : σ → σ → Prop) (x : EStateM ε σ α) : Prop := ∀ s, DrivesFrom R E s x

/-- A call may throw at once, or after calls that returned. -/
class Escapes (R E : σ → σ → Prop) : Prop extends IsPreorder σ R where
  stop : ∀ s, E s s
  after : ∀ {s s' s''}, R s s' → E s' s'' → E s s''

/-- For a call of which only the returns matter. -/
def Anywhere (_ _ : σ) : Prop := True

instance {R : σ → σ → Prop} [IsPreorder σ R] : Escapes R Anywhere where
  stop _ := trivial
  after _ _ := trivial

theorem Moves.drives {R : σ → σ → Prop} {x : EStateM ε σ α} (h : Moves R x) : Drives R Anywhere x :=
  fun s => ⟨fun a s' hrun => h s a s' hrun, fun _ _ _ => trivial⟩

section

variable {R E : σ → σ → Prop}

theorem drives_ite {c : Prop} [Decidable c] {x y : EStateM ε σ α} (hx : c → Drives R E x)
    (hy : ¬c → Drives R E y) : Drives R E (if c then x else y) := by
  split
  · rename_i h
    exact hx h
  · rename_i h
    exact hy h

theorem drivesFrom_ite {c : Prop} [Decidable c] {x y : EStateM ε σ α} {s : σ}
    (hx : c → DrivesFrom R E s x) (hy : ¬c → DrivesFrom R E s y) :
    DrivesFrom R E s (if c then x else y) := by
  split
  · rename_i h
    exact hx h
  · rename_i h
    exact hy h

theorem drives_modify {f : σ → σ} (h : ∀ s, R s (f s)) :
    Drives R E (modify f : EStateM ε σ PUnit) := by
  refine fun s => ⟨fun a s' hrun => ?_, fun e s' hrun => ?_⟩
  · cases hrun
    exact h s
  · cases hrun

theorem drivesFrom_set {s t : σ} (h : R s t) : DrivesFrom R E s (set t : EStateM ε σ PUnit) := by
  refine ⟨fun a s' hrun => ?_, fun e s' hrun => ?_⟩
  · cases hrun
    exact h
  · cases hrun

/-- What follows may depend on the state that was read. -/
theorem drives_get_bind {f : σ → EStateM ε σ β} (hf : ∀ s, DrivesFrom R E s (f s)) :
    Drives R E (get >>= f) := by
  refine fun s => ⟨fun b s' h => ?_, fun e s' h => ?_⟩
  · exact (hf s).returns b s' h
  · exact (hf s).throws e s' h

/-- A call on a part of the state. -/
theorem Drives.onto {R' E' : τ → τ → Prop} {part : τ → σ} {put : σ → τ → τ}
    {x : EStateM ε σ α} (h : Drives R E x) (hR : ∀ t s, R (part t) s → R' t (put s t))
    (hE : ∀ t s, E (part t) s → E' t (put s t)) : Drives R' E' (onto part put x) := by
  refine fun t => ⟨fun a t' hrun => ?_, fun e t' hrun => ?_⟩
  · obtain ⟨s, hx, rfl⟩ := onto_eq_ok.1 hrun
    exact hR t s ((h _).returns _ _ hx)
  · obtain ⟨s, hx, rfl⟩ := onto_eq_error.1 hrun
    exact hE t s ((h _).throws _ _ hx)

/-- The relation on the part of the state that a body started from. -/
def Outer (R : σ → σ → Prop) (p p' : σ × τ) : Prop := R p.1 p'.1

/-- A body with an object of its own goes where its calls on the rest of the state go. -/
theorem drives_withLocal {init : τ} {x : EStateM ε (σ × τ) α} (h : Drives (Outer R) (Outer E) x) :
    Drives R E (withLocal init x) := by
  refine fun s => ⟨fun r s' hrun => ?_, fun e s' hrun => ?_⟩
  · exact (h _).returns _ _ (withLocal_eq_ok.1 hrun)
  · unfold withLocal at hrun
    cases hx : x (s, init) with
    | ok a p =>
      rw [hx] at hrun
      cases hrun
    | error e' p =>
      rw [hx] at hrun
      cases hrun
      exact (h _).throws _ _ hx

theorem drives_onOuter {x : EStateM ε σ α} (h : Drives R E x) :
    Drives (Outer (τ := τ) R) (Outer E) (onOuter x) :=
  h.onto (fun _ _ hr => hr) fun _ _ he => he

variable [Escapes R E]

theorem drives_pure (a : α) : Drives R E (pure a : EStateM ε σ α) := by
  refine fun s => ⟨fun b s' h => ?_, fun e s' h => ?_⟩
  · cases h
    exact refl s
  · cases h

theorem drives_throw (e : ε) : Drives R E (throw e : EStateM ε σ α) := by
  refine fun s => ⟨fun a s' h => ?_, fun e' s' h => ?_⟩
  · cases h
  · cases h
    exact Escapes.stop R s

theorem drivesFrom_bind {x : EStateM ε σ α} {f : α → EStateM ε σ β} {s : σ}
    (hx : DrivesFrom R E s x) (hf : ∀ a, Drives R E (f a)) : DrivesFrom R E s (x >>= f) := by
  refine ⟨fun b s'' h => ?_, fun e s'' h => ?_⟩
  · obtain ⟨a, s', ha, hb⟩ := bind_eq_ok.1 h
    exact Trans.trans (hx.returns a s' ha) ((hf a s').returns b s'' hb)
  · rcases bind_eq_error.1 h with h | ⟨a, s', ha, h⟩
    · exact hx.throws e s'' h
    · exact Escapes.after (hx.returns a s' ha) ((hf a s').throws e s'' h)

theorem drives_bind {x : EStateM ε σ α} {f : α → EStateM ε σ β} (hx : Drives R E x)
    (hf : ∀ a, Drives R E (f a)) : Drives R E (x >>= f) := fun s => drivesFrom_bind (hx s) hf

theorem drives_throw_bind (e : ε) (f : α → EStateM ε σ β) : Drives R E (throw e >>= f) := by
  refine fun s => ⟨fun b s' h => ?_, fun e' s' h => ?_⟩
  · obtain ⟨_, _, h, _⟩ := bind_eq_ok.1 h
    cases h
  · rcases bind_eq_error.1 h with h | ⟨_, _, h, _⟩
    · exact (drives_throw e s : DrivesFrom R E s (throw e : EStateM ε σ α)).throws e' s' h
    · cases h

theorem drives_each {f : α → EStateM ε σ β} {as : List α} (hf : ∀ a ∈ as, Drives R E (f a)) :
    Drives R E (each f as) := by
  induction as with
  | nil => exact drives_pure []
  | cons a as ih =>
    exact drives_bind (hf a (by simp)) fun b =>
      drives_bind (ih fun a' ha' => hf a' (by simp [ha'])) fun bs => drives_pure _

instance : Escapes (Outer (τ := τ) R) (Outer (τ := τ) E) where
  refl p := refl (r := R) p.1
  trans _ _ _ h h' := Trans.trans (r := R) (s := R) (t := R) h h'
  stop p := Escapes.stop R p.1
  after h h' := Escapes.after (R := R) h h'

/-- A call on the object alone. -/
theorem drives_onLocal {x : EStateM ε τ α} :
    Drives (Outer R) (Outer E) (onLocal x : EStateM ε (σ × τ) α) := by
  refine fun p => ⟨fun a p' hrun => ?_, fun e p' hrun => ?_⟩
  · obtain ⟨t, -, rfl⟩ := onto_eq_ok.1 hrun
    exact refl (r := R) p.1
  · obtain ⟨t, -, rfl⟩ := onto_eq_error.1 hrun
    exact Escapes.stop R p.1

/-! ## Exceptions that are caught -/

theorem Drives.attempt {x : EStateM ε σ α} (h : Drives R R x) (s : σ) : R s (attempt x s).2 := by
  cases hx : x s with
  | ok a s' =>
    rw [attempt_eq_some.2 hx]
    exact (h s).returns a s' hx
  | error e s' =>
    rw [attempt_eq_none.2 ⟨e, hx⟩]
    exact (h s).throws e s' hx

theorem tryEach_drives [IsPreorder σ R] {f : α → EStateM ε σ β} {as : List α}
    (hf : ∀ a ∈ as, Drives R R (f a)) (s : σ) : R s (tryEach f as s).2 := by
  induction as generalizing s with
  | nil => exact refl s
  | cons a as ih =>
    exact Trans.trans ((hf a (by simp)).attempt s)
      (ih (fun a' ha' => hf a' (by simp [ha'])) (CxxStd.attempt (f a) s).2)

end

end CxxStd
