import Mathlib.Data.List.Basic
import Mathlib.Tactic.Tauto
import Mathlib.Order.Defs.Unbundled

/-!
# Std.Machine

Calls that work on a state and return or throw, the state being kept either way: `EStateM`, with
what a verification needs of it.

* `bind_eq_ok` and its companions — what a call that returned did, piece by piece.
* `each` — a loop over a list that collects the results.
* `Moves` — every return of a call moves the state along a relation; the rules of sequencing and
  loops for a relation that is a preorder.
* `Simulates` — two machines that stay in step.
* `Returns` — a call that does not throw.
* `onto` — a call on a part of a larger state; `withLocal` — calls on an object of one's own.
-/

namespace CxxStd

variable {ε σ τ α β : Type}

theorem bind_eq_ok {x : EStateM ε σ α} {f : α → EStateM ε σ β} {s s'' : σ} {b : β} :
    (x >>= f) s = .ok b s'' ↔ ∃ a s', x s = .ok a s' ∧ f a s' = .ok b s'' := by
  show (EStateM.bind x f) s = _ ↔ _
  unfold EStateM.bind
  cases h : x s with
  | ok a s' => simp
  | error e s' => simp

@[simp] theorem pure_eq_ok {a b : α} {s s' : σ} :
    (pure a : EStateM ε σ α) s = .ok b s' ↔ a = b ∧ s = s' := by
  show EStateM.Result.ok a s = _ ↔ _
  simp

@[simp] theorem throw_eq_ok {e : ε} {s s' : σ} {a : α} :
    (throw e : EStateM ε σ α) s = .ok a s' ↔ False := by
  show EStateM.Result.error e s = _ ↔ _
  simp

@[simp] theorem get_eq_ok {s s' a : σ} :
    (get : EStateM ε σ σ) s = .ok a s' ↔ s = a ∧ s = s' := by
  show EStateM.Result.ok s s = _ ↔ _
  simp

@[simp] theorem set_eq_ok {s s' t : σ} {u : PUnit} :
    (set t : EStateM ε σ PUnit) s = .ok u s' ↔ t = s' := by
  show EStateM.Result.ok PUnit.unit t = _ ↔ _
  simp

@[simp] theorem modify_eq_ok {f : σ → σ} {s s' : σ} {u : PUnit} :
    (modify f : EStateM ε σ PUnit) s = .ok u s' ↔ f s = s' := by
  show EStateM.Result.ok PUnit.unit (f s) = _ ↔ _
  simp

theorem ite_eq_ok {c : Prop} [Decidable c] {x y : EStateM ε σ α} {s s' : σ} {a : α} :
    (if c then x else y) s = .ok a s' ↔ (c ∧ x s = .ok a s') ∨ (¬c ∧ y s = .ok a s') := by
  split
  · rename_i h
    simp [h]
  · rename_i h
    simp [h]

/-! ## Loops -/

/-- A loop over a list whose body may throw. -/
def each (f : α → EStateM ε σ β) : List α → EStateM ε σ (List β)
  | [] => pure []
  | a :: as => do
    let b ← f a
    let bs ← each f as
    pure (b :: bs)

theorem each_cons_eq_ok {f : α → EStateM ε σ β} {a : α} {as : List α} {s s' : σ} {bs : List β} :
    each f (a :: as) s = .ok bs s' ↔
      ∃ b s₁ bs', f a s = .ok b s₁ ∧ each f as s₁ = .ok bs' s' ∧ bs = b :: bs' := by
  simp only [each, bind_eq_ok, pure_eq_ok]
  constructor
  · rintro ⟨b, s₁, hb, bs', s₂, hbs, rfl, rfl⟩
    exact ⟨b, s₁, bs', hb, hbs, rfl⟩
  · rintro ⟨b, s₁, bs', hb, hbs, rfl⟩
    exact ⟨b, s₁, hb, bs', s', hbs, rfl, rfl⟩

theorem each_length {f : α → EStateM ε σ β} {as : List α} {s s' : σ} {bs : List β}
    (h : each f as s = .ok bs s') : bs.length = as.length := by
  induction as generalizing s bs with
  | nil => cases h; rfl
  | cons a as ih =>
    obtain ⟨b, s₁, bs', _, hbs, rfl⟩ := each_cons_eq_ok.1 h
    simp [ih hbs]

/-- A loop that comes through has come through its body for each element. -/
theorem each_mem_eq_ok {f : α → EStateM ε σ β} {as : List α} {s s' : σ} {bs : List β}
    (h : each f as s = .ok bs s') {a : α} (ha : a ∈ as) : ∃ s₁ b s₂, f a s₁ = .ok b s₂ := by
  induction as generalizing s bs with
  | nil => cases ha
  | cons a' as ih =>
    obtain ⟨b, s₁, bs', hb, hbs, rfl⟩ := each_cons_eq_ok.1 h
    rcases List.mem_cons.1 ha with rfl | ha
    · exact ⟨s, b, s₁, hb⟩
    · exact ih hbs ha

theorem each_map {γ : Type} (f : β → EStateM ε σ γ) (g : α → β) (l : List α) :
    each f (l.map g) = each (f ∘ g) l := by
  induction l with
  | nil => rfl
  | cons a l ih => simp only [List.map_cons, each, ih, Function.comp_apply]

/-- The invariant rule of a loop: `I` speaks of the results so far and the state. -/
theorem each_rule {f : α → EStateM ε σ β} {I : List α → List β → σ → Prop} {as : List α}
    (hstep : ∀ {done results a s b s'}, a ∈ as → I done results s → f a s = .ok b s' →
      I (done ++ [a]) (results ++ [b]) s')
    {s s' : σ} {bs : List β} (h0 : I [] [] s) (h : each f as s = .ok bs s') : I as bs s' := by
  suffices hall : ∀ (rest done : List α) (results bs : List β) (s s' : σ), (∀ a ∈ rest, a ∈ as) →
      I done results s → each f rest s = .ok bs s' → I (done ++ rest) (results ++ bs) s' from
    hall as [] [] bs s s' (fun _ ha => ha) h0 h
  intro rest
  induction rest with
  | nil =>
    intro done results bs s s' _ hi h
    cases h
    simpa using hi
  | cons a rest ih =>
    intro done results bs s s' hmem hi h
    obtain ⟨b, s₁, bs', hb, hbs, rfl⟩ := each_cons_eq_ok.1 h
    have hnext := ih (done ++ [a]) (results ++ [b]) bs' s₁ s'
      (fun a' ha' => hmem a' (List.mem_cons_of_mem _ ha')) (hstep (hmem a List.mem_cons_self) hi hb)
      hbs
    simpa using hnext

/-! ## Where a call takes the state -/

/-- Every return of `x` moves the state along `R`. -/
def Moves (R : σ → σ → Prop) (x : EStateM ε σ α) : Prop := ∀ s a s', x s = .ok a s' → R s s'

section

variable {R : σ → σ → Prop}

theorem moves_throw (e : ε) : Moves R (throw e : EStateM ε σ α) := by
  intro s a s' h
  cases h

theorem moves_throw_bind (e : ε) (f : α → EStateM ε σ β) : Moves R (throw e >>= f) := by
  intro s b s' h
  obtain ⟨_, _, h, _⟩ := bind_eq_ok.1 h
  cases h

theorem moves_ite {c : Prop} [Decidable c] {x y : EStateM ε σ α} (hx : c → Moves R x)
    (hy : ¬c → Moves R y) : Moves R (if c then x else y) := by
  split
  · rename_i h
    exact hx h
  · rename_i h
    exact hy h

variable [IsPreorder σ R]

theorem moves_pure (a : α) : Moves R (pure a : EStateM ε σ α) := by
  rintro s b s' h
  cases h
  exact refl s

theorem moves_bind {x : EStateM ε σ α} {f : α → EStateM ε σ β} (hx : Moves R x)
    (hf : ∀ a, Moves R (f a)) : Moves R (x >>= f) := by
  intro s b s'' h
  obtain ⟨a, s', ha, hb⟩ := bind_eq_ok.1 h
  exact Trans.trans (hx s a s' ha) (hf a s' b s'' hb)

theorem moves_each {f : α → EStateM ε σ β} {as : List α} (hf : ∀ a ∈ as, Moves R (f a)) :
    Moves R (each f as) := by
  induction as with
  | nil => exact moves_pure []
  | cons a as ih =>
    exact moves_bind (hf a (by simp)) fun b =>
      moves_bind (ih fun a' ha' => hf a' (by simp [ha'])) fun bs => moves_pure _

end

/-- The moves that do not break an invariant. -/
def Preserves (P : σ → Prop) (s s' : σ) : Prop := P s → P s'

instance (P : σ → Prop) : IsPreorder σ (Preserves P) where
  refl _ hs := hs
  trans _ _ _ h h' hs := h' (h hs)

/-! ## Two machines in step -/

/-- Whatever `x` returns from a state, `y` returns from a related one, and the states stay
related. -/
def Simulates (rel : σ → τ → Prop) (x : EStateM ε σ α) (y : EStateM ε τ α) : Prop :=
  ∀ s t a s', rel s t → x s = .ok a s' → ∃ t', y t = .ok a t' ∧ rel s' t'

section

variable {rel : σ → τ → Prop}

theorem simulates_pure (a : α) :
    Simulates rel (pure a : EStateM ε σ α) (pure a : EStateM ε τ α) := by
  rintro s t b s' hrel h
  cases h
  exact ⟨t, rfl, hrel⟩

theorem simulates_throw (e : ε) (y : EStateM ε τ α) :
    Simulates rel (throw e : EStateM ε σ α) y := by
  intro s t a s' _ h
  cases h

theorem simulates_ite {c : Prop} [Decidable c] {x x' : EStateM ε σ α} {y y' : EStateM ε τ α}
    (h : c → Simulates rel x y) (h' : ¬c → Simulates rel x' y') :
    Simulates rel (if c then x else x') (if c then y else y') := by
  split
  · rename_i hc
    exact h hc
  · rename_i hc
    exact h' hc

theorem simulates_bind {x : EStateM ε σ α} {y : EStateM ε τ α} {f : α → EStateM ε σ β}
    {g : α → EStateM ε τ β} (h : Simulates rel x y) (hf : ∀ a, Simulates rel (f a) (g a)) :
    Simulates rel (x >>= f) (y >>= g) := by
  intro s t b s'' hrel hrun
  obtain ⟨a, s', hx, hfa⟩ := bind_eq_ok.1 hrun
  obtain ⟨t', hy, hrel'⟩ := h s t a s' hrel hx
  obtain ⟨t'', hg, hrel''⟩ := hf a s' t' b s'' hrel' hfa
  exact ⟨t'', bind_eq_ok.2 ⟨a, t', hy, hg⟩, hrel''⟩

theorem simulates_each {f : α → EStateM ε σ β} {g : α → EStateM ε τ β} {as : List α}
    (h : ∀ a ∈ as, Simulates rel (f a) (g a)) : Simulates rel (each f as) (each g as) := by
  induction as with
  | nil => exact simulates_pure []
  | cons a as ih =>
    exact simulates_bind (h a (by simp)) fun b =>
      simulates_bind (ih fun a' ha' => h a' (by simp [ha'])) fun bs => simulates_pure _

end

/-! ## Calls that return -/

/-- The call returns from `s`, and `P` holds of its result and the state it leaves. -/
def Returns (x : EStateM ε σ α) (s : σ) (P : α → σ → Prop) : Prop :=
  ∃ a s', x s = .ok a s' ∧ P a s'

theorem returns_bind {x : EStateM ε σ α} {f : α → EStateM ε σ β} {s : σ} {P : β → σ → Prop}
    (h : Returns x s fun a s' => Returns (f a) s' P) : Returns (x >>= f) s P := by
  obtain ⟨a, s', hx, b, s'', hf, hp⟩ := h
  exact ⟨b, s'', bind_eq_ok.2 ⟨a, s', hx, hf⟩, hp⟩

theorem Returns.mono {x : EStateM ε σ α} {s : σ} {P Q : α → σ → Prop} (h : Returns x s P)
    (hpq : ∀ a s', P a s' → Q a s') : Returns x s Q := by
  obtain ⟨a, s', hx, hp⟩ := h
  exact ⟨a, s', hx, hpq a s' hp⟩

theorem returns_each {f : α → EStateM ε σ β} {I : σ → Prop} {as : List α} {s : σ} (hs : I s)
    (hf : ∀ a ∈ as, ∀ s, I s → Returns (f a) s fun _ s' => I s') :
    Returns (each f as) s fun _ s' => I s' := by
  induction as generalizing s with
  | nil => exact ⟨[], s, rfl, hs⟩
  | cons a as ih =>
    refine returns_bind ((hf a (by simp) s hs).mono fun b s' hs' => returns_bind ?_)
    refine (ih hs' fun a' ha' => hf a' (by simp [ha'])).mono fun bs s'' hs'' => ?_
    exact ⟨b :: bs, s'', rfl, hs''⟩

/-- A loop whose passes each use up one unit of what `I` counts. -/
theorem returns_each_budget {f : α → EStateM ε σ β} {I : Nat → σ → Prop} {as : List α} {n : Nat}
    {s : σ} (hs : I (as.length + n) s)
    (hf : ∀ a ∈ as, ∀ k s, I (k + 1) s → Returns (f a) s fun _ s' => I k s') :
    Returns (each f as) s fun _ s' => I n s' := by
  induction as generalizing s with
  | nil => exact ⟨[], s, rfl, (Nat.zero_add n ▸ hs : I n s)⟩
  | cons a as ih =>
    have hs₁ : I (as.length + n + 1) s := by
      rw [List.length_cons, Nat.succ_add] at hs
      exact hs
    refine returns_bind ((hf a (by simp) _ s hs₁).mono fun b s' hs' => returns_bind ?_)
    refine (ih hs' fun a' ha' => hf a' (by simp [ha'])).mono fun bs s'' hs'' => ?_
    exact ⟨b :: bs, s'', rfl, hs''⟩

/-- Whether a call has returned. -/
def succeeded : EStateM.Result ε σ α → Bool
  | .ok _ _ => true
  | .error _ _ => false

theorem succeeded_iff {r : EStateM.Result ε σ α} : succeeded r = true ↔ ∃ a s, r = .ok a s := by
  cases r with
  | ok a s => simp [succeeded]
  | error e s => simp [succeeded]

/-- The state a call that returned left. -/
def finalState : EStateM.Result ε σ α → Option σ
  | .ok _ s => some s
  | .error _ _ => none

theorem finalState_eq_some {r : EStateM.Result ε σ α} {s : σ} :
    finalState r = some s ↔ ∃ a, r = .ok a s := by
  cases r with
  | ok a s' => simp [finalState]
  | error e s' => simp [finalState]

/-- The call returns, or it throws in a state of which `full` holds. -/
def ReturnsUnless (full : σ → Prop) (x : EStateM ε σ α) (s : σ) (P : α → σ → Prop) : Prop :=
  Returns x s P ∨ ∃ e s', x s = .error e s' ∧ full s'

theorem returnsUnless_bind {full : σ → Prop} {x : EStateM ε σ α} {f : α → EStateM ε σ β} {s : σ}
    {P : β → σ → Prop}
    (h : ReturnsUnless full x s fun a s' => ReturnsUnless full (f a) s' P) :
    ReturnsUnless full (x >>= f) s P := by
  have hbind : (x >>= f) s = EStateM.bind x f s := rfl
  rcases h with ⟨a, s', hx, hf⟩ | ⟨e, s', hx, hfull⟩
  · rcases hf with ⟨b, s'', hf, hp⟩ | ⟨e, s'', hf, hfull⟩
    · exact .inl ⟨b, s'', bind_eq_ok.2 ⟨a, s', hx, hf⟩, hp⟩
    · exact .inr ⟨e, s'', by rw [hbind, EStateM.bind, hx]; exact hf, hfull⟩
  · exact .inr ⟨e, s', by rw [hbind, EStateM.bind, hx], hfull⟩

theorem ReturnsUnless.mono {full : σ → Prop} {x : EStateM ε σ α} {s : σ} {P Q : α → σ → Prop}
    (h : ReturnsUnless full x s P) (hpq : ∀ a s', P a s' → Q a s') : ReturnsUnless full x s Q :=
  h.imp_left fun hreturns => hreturns.mono hpq

theorem returnsUnless_each {full : σ → Prop} {f : α → EStateM ε σ β} {I : σ → Prop} {as : List α}
    {s : σ} (hs : I s) (hf : ∀ a ∈ as, ∀ s, I s → ReturnsUnless full (f a) s fun _ s' => I s') :
    ReturnsUnless full (each f as) s fun _ s' => I s' := by
  induction as generalizing s with
  | nil => exact .inl ⟨[], s, rfl, hs⟩
  | cons a as ih =>
    refine returnsUnless_bind ((hf a (by simp) s hs).mono fun b s' hs' => returnsUnless_bind ?_)
    refine (ih hs' fun a' ha' => hf a' (by simp [ha'])).mono fun bs s'' hs'' => ?_
    exact .inl ⟨b :: bs, s'', rfl, hs''⟩

/-! ## A part of the state -/

/-- A call on the part of a state that `part` reads and `put` replaces. -/
def onto (part : τ → σ) (put : σ → τ → τ) (x : EStateM ε σ α) : EStateM ε τ α := fun t =>
  match x (part t) with
  | .ok a s => .ok a (put s t)
  | .error e s => .error e (put s t)

theorem onto_eq_ok {part : τ → σ} {put : σ → τ → τ} {x : EStateM ε σ α} {t t' : τ} {a : α} :
    onto part put x t = .ok a t' ↔ ∃ s, x (part t) = .ok a s ∧ t' = put s t := by
  unfold onto
  cases h : x (part t) with
  | ok b s => simp [eq_comm]
  | error e s => simp

theorem returns_onto {part : τ → σ} {put : σ → τ → τ} {x : EStateM ε σ α} {t : τ}
    {P : α → σ → Prop} (h : Returns x (part t) P) :
    Returns (onto part put x) t fun a t' => ∃ s, P a s ∧ t' = put s t := by
  obtain ⟨a, s, hx, hp⟩ := h
  exact ⟨a, put s t, onto_eq_ok.2 ⟨s, hx, rfl⟩, s, hp, rfl⟩

/-- The rest of a body that works on an object of its own: the object is made from `init` and
handed back with the result. When the body throws, it is lost. -/
def withLocal (init : τ) (x : EStateM ε (σ × τ) α) : EStateM ε σ (α × τ) := fun s =>
  match x (s, init) with
  | .ok a (s, t) => .ok (a, t) s
  | .error e (s, _) => .error e s

/-- Inside such a body: a call on what was there before. -/
def onOuter (x : EStateM ε σ α) : EStateM ε (σ × τ) α := onto Prod.fst (fun s p => (s, p.2)) x

/-- Inside such a body: a call on the object. -/
def onLocal (x : EStateM ε τ α) : EStateM ε (σ × τ) α := onto Prod.snd (fun t p => (p.1, t)) x

theorem withLocal_eq_ok {init : τ} {x : EStateM ε (σ × τ) α} {s s' : σ} {r : α × τ} :
    withLocal init x s = .ok r s' ↔ x (s, init) = .ok r.1 (s', r.2) := by
  unfold withLocal
  cases h : x (s, init) with
  | ok a p =>
    obtain ⟨b, t⟩ := r
    obtain ⟨s₁, t₁⟩ := p
    simp only [EStateM.Result.ok.injEq, Prod.mk.injEq]
    tauto
  | error e p => simp

theorem onOuter_eq_ok {x : EStateM ε σ α} {s s' : σ} {t t' : τ} {a : α} :
    onOuter x (s, t) = .ok a (s', t') ↔ x s = .ok a s' ∧ t = t' := by
  rw [onOuter, onto_eq_ok]
  constructor
  · rintro ⟨s₁, hx, heq⟩
    cases heq
    exact ⟨hx, rfl⟩
  · rintro ⟨hx, rfl⟩
    exact ⟨s', hx, rfl⟩

theorem onLocal_eq_ok {x : EStateM ε τ α} {s s' : σ} {t t' : τ} {a : α} :
    onLocal x (s, t) = .ok a (s', t') ↔ x t = .ok a t' ∧ s = s' := by
  rw [onLocal, onto_eq_ok]
  constructor
  · rintro ⟨t₁, hx, heq⟩
    cases heq
    exact ⟨hx, rfl⟩
  · rintro ⟨hx, rfl⟩
    exact ⟨t', hx, rfl⟩

end CxxStd
