import Imap2Pst.Mime.Walk

/-!
# Mime.Alternative

What becomes of the representations of one text in a multipart/alternative. `collect` has two
slots: text/html goes into one, every other subtype of text into the other, and the last part of a
slot wins.

* `SoleAlternative` — a tree whose text parts are all children of one multipart/alternative.
* `bodies_of_soleAlternative` — its two bodies.
* `plain_kept_iff` — when the plain body is the text of the last text/plain part.
-/

namespace Imap2Pst
namespace Mime

open CxxStd

/-! ## Trees with one alternative -/

def isPlain (e : Entity) : Bool := e.subtype = str "plain"

/-- A leaf that goes into one of the bodies. -/
def isTextPart (e : Entity) : Bool := !e.isMultipart && !becomesAttachment e

/-- No text part at any depth. -/
def Textless (e : Entity) : Prop := ∀ l ∈ leaves false e, becomesAttachment l.entity = true

/-- `e` lies below multiparts of the tree, with no text part beside it. -/
inductive OnlyTextIn (e : Entity) : Entity → Prop
  | here : OnlyTextIn e e
  | part {root p : Entity} {before after : List Entity} (hroot : root.isMultipart = true)
      (hparts : root.parts = before ++ p :: after) (hbefore : ∀ x ∈ before, Textless x)
      (hafter : ∀ x ∈ after, Textless x) (hp : OnlyTextIn e p) : OnlyTextIn e root

/-- The text parts of the tree are the children of `e`, a multipart/alternative of it. -/
structure SoleAlternative (e root : Entity) : Prop where
  alternative : isAlternative e = true
  only : OnlyTextIn e root
  flat : ∀ p ∈ e.parts, p.isMultipart = true → Textless p

/-- The representations in an alternative, in order. -/
def texts (e : Entity) : List Entity := e.parts.filter isTextPart

section

variable {icu : Converter} {html inAlternative : Bool}

theorem entries_append (l l' : List Leaf) :
    entries icu html (l ++ l') = entries icu html l ++ entries icu html l' := by
  simp only [entries, List.filter_append, List.map_append]

theorem leaves_entity (inAlternative inAlternative' : Bool) (e : Entity) :
    (leaves inAlternative e).map Leaf.entity = (leaves inAlternative' e).map Leaf.entity := by
  rw [leaves, leaves]
  split <;> rfl

theorem Textless.entries {e : Entity} (h : Textless e) :
    entries icu html (leaves inAlternative e) = [] := by
  unfold Mime.entries
  rw [List.map_eq_nil_iff, List.filter_eq_nil_iff]
  intro l hl
  have hmem : l.entity ∈ (leaves false e).map Leaf.entity := by
    rw [leaves_entity false inAlternative]
    exact List.mem_map_of_mem hl
  obtain ⟨l', hl', heq⟩ := List.mem_map.1 hmem
  have hattached := h l' hl'
  rw [heq] at hattached
  simp [hattached]

theorem entries_leavesOfParts {parts : List Entity} (h : ∀ p ∈ parts, Textless p) :
    entries icu html (leavesOfParts inAlternative parts) = [] := by
  induction parts with
  | nil =>
    rw [leavesOfParts]
    rfl
  | cons p parts ih =>
    rw [leavesOfParts, entries_append, (h p List.mem_cons_self).entries,
      ih fun x hx => h x (List.mem_cons_of_mem _ hx)]
    rfl

/-- The parts beside the alternative have no say in the bodies. -/
theorem OnlyTextIn.entries {e root : Entity} (h : OnlyTextIn e root)
    (he : e.isMultipart = true) :
    entries icu html (leaves inAlternative root) = entries icu html (leaves false e) := by
  induction h generalizing inAlternative with
  | here => rw [leaves, leaves, if_pos he, if_pos he]
  | @part root p before after hroot hparts hbefore hafter _ ih =>
    rw [leaves, if_pos hroot, hparts, leavesOfParts_append, leavesOfParts, entries_append,
      entries_append, entries_leavesOfParts hbefore, entries_leavesOfParts hafter, ih,
      List.nil_append, List.append_nil]

/-- Each child that is a text part overrides what the slot holds. -/
theorem entries_alternative {parts : List Entity}
    (hflat : ∀ p ∈ parts, p.isMultipart = true → Textless p) :
    entries icu html (leavesOfParts true parts) =
      ((parts.filter isTextPart).filter fun p => isHtml p == html).map fun p =>
        (true, textOf icu p) := by
  induction parts with
  | nil =>
    rw [leavesOfParts]
    rfl
  | cons p parts ih =>
    have hrest := ih fun x hx => hflat x (List.mem_cons_of_mem _ hx)
    rw [leavesOfParts, entries_append, hrest]
    by_cases hmulti : p.isMultipart = true
    · have hout : isTextPart p = false := by simp [isTextPart, hmulti]
      rw [(hflat p List.mem_cons_self hmulti).entries, List.filter_cons_of_neg (by simp [hout])]
      rfl
    · have hleaf : leaves true p = [⟨true, p⟩] := by rw [leaves, if_neg hmulti]
      have htext : isTextPart p = !becomesAttachment p := by simp [isTextPart, hmulti]
      rw [hleaf]
      by_cases hattached : becomesAttachment p = true
      · rw [List.filter_cons_of_neg (by simp [htext, hattached])]
        simp [entries, hattached]
      · rw [List.filter_cons_of_pos (by simp [htext, hattached])]
        rw [List.filter_cons (p := fun p => isHtml p == html)]
        by_cases hslot : (isHtml p == html) = true
        · simp [entries, hattached, hslot]
        · simp [entries, hattached, hslot]

end

/-- Of entries that all override, the last one stays. -/
theorem fillAll_override {α : Type} [DecidableEq α] (empty : α) (values : List α) :
    Slot.fillAll empty (values.map fun v => (true, v)) = values.getLast?.getD empty := by
  induction values using List.reverseRecOn with
  | nil => rfl
  | append_singleton values v _ =>
    rw [List.map_append, List.map_singleton, Slot.fillAll_concat, List.getLast?_concat]
    exact if_pos (.inr rfl)

/-! ## The two bodies -/

section

variable (icu : Converter)

/-- The last representation of a kind. -/
def lastText (kind : Entity → Bool) (e : Entity) : Option Entity := ((texts e).filter kind).getLast?

/-- A body is the text of the last representation that goes into it. -/
theorem bodies_of_soleAlternative {e root : Entity} (h : SoleAlternative e root) (depth : Nat)
    (html : Bool) :
    bodyOf html (buildMessage icu root depth) =
      ((lastText (fun p => isHtml p == html) e).map (textOf icu)).getD [] := by
  have halternative := h.alternative
  simp only [isAlternative, Bool.and_eq_true, decide_eq_true_eq] at halternative
  rw [buildMessage_body, h.only.entries halternative.1, leaves, if_pos halternative.1,
    decide_eq_true halternative.2, entries_alternative h.flat]
  have hmap : (((e.parts.filter isTextPart).filter fun p => isHtml p == html).map fun p =>
      (true, textOf icu p)) =
      (((texts e).filter fun p => isHtml p == html).map (textOf icu)).map fun v => (true, v) := by
    rw [List.map_map]
    rfl
  rw [hmap, fillAll_override, List.getLast?_map]
  rfl

/-- The bodies are the texts of the last text/plain and the last text/html representation, when
there are such. -/
structure BodiesKept (e : Entity) (m : Message) : Prop where
  plain : ∀ p, lastText isPlain e = some p → m.bodyText = textOf icu p
  html : ∀ p, lastText isHtml e = some p → m.bodyHtml = textOf icu p

/-- A text/plain representation is one that does not go into the html body. -/
theorem lastText_of_plain {e p : Entity} (hp : lastText isPlain e = some p) :
    ∃ q, lastText (fun p => !isHtml p) e = some q := by
  obtain ⟨hmem, hplain⟩ := List.mem_filter.1 (List.mem_of_getLast? hp)
  have hhtml : isHtml p = false := by
    have hsub : p.subtype = str "plain" := of_decide_eq_true hplain
    rw [isHtml, hsub]
    decide
  have hother : p ∈ (texts e).filter fun p => !isHtml p :=
    List.mem_filter.2 ⟨hmem, by rw [hhtml]; rfl⟩
  exact ⟨_, List.getLast?_eq_some_getLast (List.ne_nil_of_mem hother)⟩

/-- The html body always is. The plain body is exactly when no representation that is neither
text/plain nor text/html comes after the last text/plain one, or what comes last converts to the
same text. -/
theorem bodies_kept_iff {e root : Entity} (h : SoleAlternative e root) (depth : Nat) :
    BodiesKept icu e (buildMessage icu root depth) ↔
      ∀ p q, lastText isPlain e = some p → lastText (fun p => !isHtml p) e = some q →
        textOf icu q = textOf icu p := by
  have htext : bodyOf false (buildMessage icu root depth) =
      ((lastText (fun p => !isHtml p) e).map (textOf icu)).getD [] := by
    have hbody := bodies_of_soleAlternative icu h depth false
    simpa only [beq_false] using hbody
  have hhtml : bodyOf true (buildMessage icu root depth) =
      ((lastText isHtml e).map (textOf icu)).getD [] := by
    have hbody := bodies_of_soleAlternative icu h depth true
    simpa only [beq_true] using hbody
  simp only [bodyOf, if_true, Bool.false_eq_true, if_false] at htext hhtml
  constructor
  · intro hkept p q hp hq
    have hplain := hkept.plain p hp
    rwa [htext, hq] at hplain
  · intro hcond
    refine ⟨fun p hp => ?_, fun p hp => ?_⟩
    · obtain ⟨q, hq⟩ := lastText_of_plain hp
      rw [htext, hq]
      exact hcond p q hp hq
    · rw [hhtml, hp]
      rfl

/-- An alternative of text parts, by subtype and octets. -/
def alternativeOf (parts : List (Bytes × Bytes)) : Entity :=
  { type_ := str "multipart", subtype := str "alternative"
    parts := parts.map fun (subtype, body) => { type_ := str "text", subtype, body } }

theorem soleAlternative_alternativeOf (parts : List (Bytes × Bytes)) :
    SoleAlternative (alternativeOf parts) (alternativeOf parts) where
  alternative := rfl
  only := .here
  flat p hp hmulti := by
    obtain ⟨part, _, rfl⟩ := List.mem_map.1 hp
    have htype : str "text" = str "multipart" := of_decide_eq_true hmulti
    exact absurd htype (by decide)

/-- A newsletter: plain text, then html. -/
theorem newsletter_bodies_kept :
    BodiesKept (fun _ _ => none)
      (alternativeOf [(str "plain", str "Hello"), (str "html", str "<p>Hello")])
      (buildMessage (fun _ _ => none)
        (alternativeOf [(str "plain", str "Hello"), (str "html", str "<p>Hello")]) 0) := by
  refine (bodies_kept_iff (fun _ _ => none) (soleAlternative_alternativeOf _) 0).2 ?_
  rintro p q ⟨⟩ ⟨⟩
  rfl

/-- An invitation: the text of the meeting, then the meeting itself. -/
def invitation : Entity :=
  alternativeOf [(str "plain", str "Lunch at noon"), (str "calendar", str "BEGIN:VCALENDAR")]

/-- The text of an invitation is replaced by the calendar file. -/
theorem invitation_loses_its_text :
    SoleAlternative invitation invitation ∧
      ¬ BodiesKept (fun _ _ => none) invitation (buildMessage (fun _ _ => none) invitation 0) := by
  refine ⟨soleAlternative_alternativeOf _, fun hkept => ?_⟩
  have htext := hkept.plain _ rfl
  revert htext
  decide +kernel

end

end Mime
end Imap2Pst
