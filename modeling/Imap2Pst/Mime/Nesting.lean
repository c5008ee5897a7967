import Imap2Pst.Mime.Walk

/-!
# Mime.Nesting

The two nesting limits. `parseEntity` counts multiparts and messages, `buildMessage` counts
messages only, so it always has a level left for a message that was taken apart.

* `Descends`         — a part some levels below an entity.
* `descends_parse`   — the parser's counter: what lies `n` levels down was parsed with `n` fewer.
* `stored_everywhere` / `from_everywhere` — the builder's counter never runs out first.
* `counters_agree`   — every attachment of every message, nested ones included.
-/

namespace Imap2Pst
namespace Mime

open CxxStd

/-! ## The tree -/

/-- `x` lies `n` levels below `e`. -/
inductive Descends : Entity → Nat → Entity → Prop
  | here (e : Entity) : Descends e 0 e
  | part {e p x : Entity} {n : Nat} (hp : p ∈ e.parts) (h : Descends p n x) :
      Descends e (n + 1) x

theorem Descends.trans {e x y : Entity} {m n : Nat} (h : Descends e m x) (h' : Descends x n y) :
    Descends e (m + n) y := by
  induction h with
  | here e => rwa [Nat.zero_add]
  | part hp h ih =>
    rw [Nat.add_right_comm]
    exact .part hp (ih h')

section

variable (icu : Converter)

/-- The parts of an entity were parsed with one level less. -/
theorem parts_parse {levels : Nat} {source : Bytes} {p : Entity}
    (hp : p ∈ (parseEntityAt icu levels source).parts) :
    ∃ below part, levels = below + 1 ∧ p = parseEntityAt icu below part := by
  have hnone := (entityHead_spec icu source).1
  cases levels with
  | zero =>
    have hnil : (parseEntityAt icu 0 source).parts = [] := hnone
    rw [hnil] at hp
    cases hp
  | succ below =>
    simp only [parseEntityAt] at hp
    split at hp
    · obtain ⟨part, -, rfl⟩ := List.mem_map.1 hp
      exact ⟨below, part, rfl, rfl⟩
    · split at hp
      · exact ⟨below, _, rfl, List.mem_singleton.1 hp⟩
      · have hnil : (decoded (entityHead icu source)).parts = [] := hnone
        rw [hnil] at hp
        cases hp

/-- A message has one part where levels are left, and none otherwise. -/
theorem parts_message {levels : Nat} {source : Bytes}
    (h : (parseEntityAt icu levels source).isMessage = true) :
    (parseEntityAt icu levels source).parts = [] ∨
      ∃ below part, levels = below + 1 ∧
        (parseEntityAt icu levels source).parts = [parseEntityAt icu below part] := by
  have hnone := (entityHead_spec icu source).1
  cases levels with
  | zero => exact .inl hnone
  | succ below =>
    simp only [parseEntityAt] at h ⊢
    split
    · rename_i hmulti
      rw [if_pos hmulti] at h
      have hnot := isMessage_of_isMultipart hmulti.1
      have hsame : (entityHead icu source).isMessage = true := h
      rw [hnot] at hsame
      cases hsame
    · split
      · exact .inr ⟨below, _, rfl, rfl⟩
      · exact .inl hnone

/-- What lies `n` levels down was parsed with `n` levels less. -/
theorem descends_parse {levels n : Nat} {source : Bytes} {x : Entity}
    (h : Descends (parseEntityAt icu levels source) n x) :
    ∃ below part, levels = below + n ∧ x = parseEntityAt icu below part := by
  generalize he : parseEntityAt icu levels source = e at h
  induction h generalizing levels source with
  | here e => exact ⟨levels, source, rfl, he.symm⟩
  | part hp h ih =>
    subst he
    obtain ⟨below, part, rfl, rfl⟩ := parts_parse icu hp
    obtain ⟨below', part', rfl, rfl⟩ := ih rfl
    exact ⟨below', part', rfl, rfl⟩

end

/-! ## Leaves -/

theorem descends_of_mem_leaves {e : Entity} {inAlternative : Bool} {l : Leaf}
    (he : WellFormed e) (hl : l ∈ leaves inAlternative e) : ∃ n, Descends e n l.entity := by
  induction he generalizing inAlternative with
  | intro e hkind hraw hparts ih =>
    rw [leaves] at hl
    split at hl
    · obtain ⟨p, hp, hl⟩ := mem_leavesOfParts.1 hl
      obtain ⟨n, h⟩ := ih p hp hl
      exact ⟨n + 1, .part hp h⟩
    · rw [List.mem_singleton.1 hl]
      exact ⟨0, .here e⟩

/-- A message in the tree is a leaf of the walk, or lies in one. -/
theorem leaf_of_descends {e x : Entity} {n : Nat} (h : Descends e n x) (he : WellFormed e)
    (hx : x.isMessage = true) (inAlternative : Bool) :
    ∃ l ∈ leaves inAlternative e, l.entity.isMessage = true ∧ ∃ m, Descends e m l.entity ∧
      (l.entity = x ∨ ∃ p ∈ l.entity.parts, ∃ k < n, Descends p k x) := by
  induction h generalizing inAlternative with
  | here e =>
    refine ⟨⟨inAlternative, e⟩, ?_, hx, 0, .here e, .inl rfl⟩
    have hnot : e.isMultipart = false := by
      cases hmulti : e.isMultipart with
      | false => rfl
      | true =>
        rw [isMessage_of_isMultipart hmulti] at hx
        cases hx
    rw [leaves, hnot]
    simp
  | @part e p x n hp h ih =>
    obtain ⟨_, hkind, -, hparts⟩ := he
    rcases hkind (List.ne_nil_of_mem hp) with hmulti | hmessage
    · obtain ⟨l, hl, hmessage, m, hm, hcase⟩ := ih (hparts p hp) hx (e.subtype = str "alternative")
      refine ⟨l, ?_, hmessage, m + 1, .part hp hm, ?_⟩
      · rw [leaves, if_pos hmulti]
        exact mem_leavesOfParts.2 ⟨p, hp, hl⟩
      · refine hcase.imp_right fun ⟨q, hq, k, hk, hqx⟩ => ⟨q, hq, k, Nat.lt_succ_of_lt hk, hqx⟩
    · have hnot : e.isMultipart = false := by
        cases hmulti : e.isMultipart with
        | false => rfl
        | true =>
          rw [isMessage_of_isMultipart hmulti] at hmessage
          cases hmessage
      refine ⟨⟨inAlternative, e⟩, ?_, hmessage, 0, .here e, .inr ⟨p, hp, n, Nat.lt_succ_self n, h⟩⟩
      rw [leaves, hnot]
      simp

theorem not_multipart_of_mem_leaves {e : Entity} {inAlternative : Bool} {l : Leaf}
    (he : WellFormed e) (hl : l ∈ leaves inAlternative e) : l.entity.isMultipart = false := by
  induction he generalizing inAlternative with
  | intro e hkind hraw hparts ih =>
    rw [leaves] at hl
    split at hl
    · obtain ⟨p, hp, hl⟩ := mem_leavesOfParts.1 hl
      exact ih p hp hl
    · rename_i hmulti
      rw [List.mem_singleton.1 hl]
      exact Bool.eq_false_iff.2 hmulti

/-! ## Attachments -/

/-- A list and what is made of its elements and their positions. -/
theorem forall₂_zipIdx {α β : Type} {R : α → β → Prop} {f : α × Nat → β} {xs : List α}
    (h : ∀ x ∈ xs, ∀ k, R x (f (x, k))) (start : Nat) :
    List.Forall₂ R xs ((xs.zipIdx start).map f) := by
  induction xs generalizing start with
  | nil => exact .nil
  | cons x xs ih =>
    exact .cons (h x List.mem_cons_self start)
      (ih (fun y hy => h y (List.mem_cons_of_mem _ hy)) (start + 1))

variable (icu : Converter)

/-- What the attachment of an entity holds: a message and its source where the entity was taken
    apart, its decoded body otherwise. -/
structure StoredAs (x : Entity) (a : Attachment) : Prop where
  taken : x.isMessage = true → ∀ first ∈ x.parts.head?, a.data = x.rawBody ∧
    ∃ levels, a.embedded = some (buildMessageAt icu levels first)
  kept : x.isMessage = false ∨ x.parts = [] → a.data = x.body ∧ a.embedded = none

/-- A level that is left for every message taken apart. -/
theorem storedAs_attachmentOf {levels : Nat} {x : Entity} (k : Nat)
    (hlevels : x.isMessage = true → x.parts ≠ [] → 0 < levels) :
    StoredAs icu x (attachmentOf (embeddedBuilder icu levels) x k) := by
  constructor
  · intro hmessage first hfirst
    obtain ⟨rest, hparts⟩ := List.head?_eq_some_iff.1 hfirst
    obtain ⟨below, rfl⟩ : ∃ below, levels = below + 1 :=
      ⟨levels - 1, by have := hlevels hmessage (by rw [hparts]; simp); omega⟩
    refine ⟨?_, below, (embedded_eq_some_iff icu).2 ⟨hmessage, first, hfirst, below, rfl, rfl⟩⟩
    rw [embeddedBuilder, attachmentOf_data, carried, if_pos ⟨hmessage, by rw [hparts]; simp⟩]
  · intro hkept
    unfold attachmentOf
    rcases hkept with hmessage | hparts
    · rw [hmessage]
      exact ⟨rfl, rfl⟩
    · rw [hparts]
      cases x.isMessage <;> exact ⟨rfl, rfl⟩

/-- A message, one embedded in it, and so on. -/
inductive Within : Message → Message → Prop
  | here (m : Message) : Within m m
  | inner {m m' inner : Message} {a : Attachment} (ha : a ∈ m.attachments)
      (hinner : a.embedded = some inner) (h : Within inner m') : Within m m'

/-- Every message in the tree is an attachment of some message that is built. -/
theorem stored_everywhere {n levels limit : Nat} {source : Bytes} {x : Entity}
    (hlimit : levels ≤ limit) (h : Descends (parseEntityAt icu levels source) n x)
    (hx : x.isMessage = true) :
    ∃ m a, Within (buildMessageAt icu limit (parseEntityAt icu levels source)) m ∧
      a ∈ m.attachments ∧ StoredAs icu x a := by
  induction n using Nat.strong_induction_on generalizing levels limit source with
  | _ n ih =>
    obtain ⟨l, hl, hmessage, m, hm, hcase⟩ :=
      leaf_of_descends h (parseEntityAt_wellFormed icu levels source) hx false
    obtain ⟨below, part, hlevels, hentity⟩ := descends_parse icu hm
    have hattached : l.entity ∈ attached (leaves false (parseEntityAt icu levels source)) := by
      refine List.mem_map.2 ⟨l, List.mem_filter.2 ⟨hl, ?_⟩, rfl⟩
      rw [becomesAttachment, hmessage, Bool.true_or, Bool.true_or]
    obtain ⟨k, hk⟩ := exists_attachment icu limit hattached
    rcases hcase with rfl | ⟨p, hp, j, hj, hpx⟩
    · refine ⟨_, _, .here _, hk, storedAs_attachmentOf icu k fun _ hparts => ?_⟩
      obtain ⟨p, hp⟩ := List.exists_mem_of_ne_nil _ hparts
      rw [hentity] at hp
      obtain ⟨deeper, -, hdeeper, -⟩ := parts_parse icu hp
      omega
    · have hp' := hp
      rw [hentity] at hmessage hp'
      rcases parts_message icu hmessage with hnil | ⟨deeper, inside, hdeeper, hone⟩
      · rw [hnil] at hp'
        cases hp'
      · rw [hone, List.mem_singleton] at hp'
        subst hp'
        obtain ⟨left, rfl⟩ : ∃ left, limit = left + 1 := ⟨limit - 1, by omega⟩
        obtain ⟨m', a, hwithin, ha, hstored⟩ := ih j hj (show deeper ≤ left by omega) hpx
        refine ⟨m', a, .inner hk ((embedded_eq_some_iff icu).2 ⟨?_, _, ?_, left, rfl, rfl⟩) hwithin,
          ha, hstored⟩
        · rw [hentity]
          exact hmessage
        · rw [hentity, hone]
          rfl

/-- Every message that is built is that of a part, and its level was counted by the parser too. -/
theorem from_everywhere {levels limit : Nat} {source : Bytes} {m : Message}
    (hlimit : levels ≤ limit)
    (h : Within (buildMessageAt icu limit (parseEntityAt icu levels source)) m) :
    ∃ n below left part, Descends (parseEntityAt icu levels source) n (parseEntityAt icu below part) ∧
      below ≤ left ∧ m = buildMessageAt icu left (parseEntityAt icu below part) := by
  generalize hbuilt : buildMessageAt icu limit (parseEntityAt icu levels source) = whole at h
  induction h generalizing levels limit source with
  | here m => exact ⟨0, levels, limit, source, .here _, hlimit, hbuilt.symm⟩
  | inner ha hinner h ih =>
    subst hbuilt
    obtain ⟨x, hx, k, rfl⟩ := mem_attachments icu ha
    obtain ⟨hmessage, first, hfirst, left, rfl, rfl⟩ := (embedded_eq_some_iff icu).1 hinner
    obtain ⟨l, hl, rfl⟩ := List.mem_map.1 hx
    obtain ⟨n, hn⟩ := descends_of_mem_leaves (parseEntityAt_wellFormed icu levels source)
      (List.mem_of_mem_filter hl)
    have hstep := hn.trans (.part (List.mem_of_mem_head? hfirst) (.here first))
    obtain ⟨below, part, hlevels, hpart⟩ := descends_parse icu hstep
    subst hpart
    obtain ⟨n', below', left', part', hdescends, hle, hm⟩ := ih (show below ≤ left by omega) rfl
    exact ⟨_, below', left', part', hstep.trans hdescends, hle, hm⟩

/-- `a` is what a part of `root` is stored as, and it is not empty if the part is not. -/
structure Keeps (root x : Entity) (a : Attachment) : Prop where
  part : ∃ n, Descends root n x
  stored : StoredAs icu x a
  notEmpty : x.body ≠ [] ∨ x.parts ≠ [] → a.embedded ≠ none ∨ a.data ≠ []

theorem StoredAs.notEmpty {x : Entity} {a : Attachment} (h : StoredAs icu x a) (hx : WellFormed x)
    (hleaf : x.isMultipart = false) (hbody : x.body ≠ [] ∨ x.parts ≠ []) :
    a.embedded ≠ none ∨ a.data ≠ [] := by
  by_cases hparts : x.parts = []
  · right
    rw [(h.kept (.inr hparts)).1]
    exact hbody.resolve_right (not_not_intro hparts)
  · left
    obtain ⟨first, rest, hcons⟩ := List.exists_cons_of_ne_nil hparts
    obtain ⟨_, hkind, -, -⟩ := hx
    have hmessage := (hkind hparts).resolve_left (by rw [hleaf]; exact Bool.false_ne_true)
    obtain ⟨-, levels, hembedded⟩ := h.taken hmessage first (by rw [hcons]; rfl)
    rw [hembedded]
    exact Option.some_ne_none _

/-- The attachments of a message that is built, one for each leaf that becomes one. -/
theorem keeps_attachments {root : Entity} {n below left : Nat} {part : Bytes}
    (hdescends : Descends root n (parseEntityAt icu below part)) (hle : below ≤ left) :
    List.Forall₂ (Keeps icu root) (attached (leaves false (parseEntityAt icu below part)))
      (buildMessageAt icu left (parseEntityAt icu below part)).attachments := by
  have hwell := parseEntityAt_wellFormed icu below part
  rw [buildMessageAt_attachments]
  refine forall₂_zipIdx (fun x hx k => ?_) 0
  obtain ⟨l, hl, rfl⟩ := List.mem_map.1 hx
  have hleaf := List.mem_of_mem_filter hl
  obtain ⟨n', hn'⟩ := descends_of_mem_leaves hwell hleaf
  obtain ⟨below', part', hlevels, hentity⟩ := descends_parse icu hn'
  have hstored : StoredAs icu l.entity (attachmentOf (embeddedBuilder icu left) l.entity k) := by
    refine storedAs_attachmentOf icu k fun _ hparts => ?_
    obtain ⟨p, hp⟩ := List.exists_mem_of_ne_nil _ hparts
    rw [hentity] at hp
    obtain ⟨deeper, -, hdeeper, -⟩ := parts_parse icu hp
    omega
  have hwell' : WellFormed l.entity := hentity ▸ parseEntityAt_wellFormed icu below' part'
  exact ⟨⟨n + n', hdescends.trans hn'⟩, hstored,
    hstored.notEmpty icu hwell' (not_multipart_of_mem_leaves hwell hleaf)⟩

/-- **Nesting.** The tree of a source is at most eight levels high. Every message in it, taken
    apart or not, is stored as it was parsed. The attachments of every message are its leaves
    that become attachments, one by one, and none is empty whose part was not. -/
theorem counters_agree (source : Bytes) :
    (∀ n x, Descends (parseEntity icu source 0) n x → n ≤ 8) ∧
    (∀ n x, Descends (parseEntity icu source 0) n x → x.isMessage = true →
      ∃ m a, Within (buildMessage icu (parseEntity icu source 0) 0) m ∧ a ∈ m.attachments ∧
        StoredAs icu x a) ∧
    ∀ m, Within (buildMessage icu (parseEntity icu source 0) 0) m →
      ∃ n e levels, Descends (parseEntity icu source 0) n e ∧ m = buildMessageAt icu levels e ∧
        List.Forall₂ (Keeps icu (parseEntity icu source 0)) (attached (leaves false e))
          m.attachments := by
  refine ⟨fun n x h => ?_, fun n x h hx => ?_, fun m hwithin => ?_⟩
  · obtain ⟨below, part, hlevels, -⟩ := descends_parse icu h
    exact (Nat.le_add_left n below).trans (Nat.le_of_eq hlevels.symm)
  · exact stored_everywhere icu (Nat.le_refl _) h hx
  · obtain ⟨n, below, left, part, hdescends, hle, rfl⟩ :=
      from_everywhere icu (Nat.le_refl _) hwithin
    exact ⟨n, _, left, hdescends, rfl, keeps_attachments icu hdescends hle⟩

end Mime
end Imap2Pst
