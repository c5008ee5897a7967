import Imap2Pst.Mime.Builder
import Imap2Pst.Std.Slot

/-!
# Mime.Walk

What the walk of `buildMessage` does with a tree, said by the leaves it meets. `leaves` lists the
entities below the multiparts of a tree in the order of the walk; `collect` is a fold over them,
so that each body is a slot filled by the text leaves of its kind (`bodyText_eq`, `bodyHtml_eq`)
and the attachments are the other leaves in order (`attachments_data`).

* `Lies` — a part of the tree, with what it lies in.
* `WellFormed` — what `parseEntity` guarantees of every tree: only multiparts and messages have
  parts, and a part's octets are a piece of the octets it was cut from.
-/

namespace Imap2Pst
namespace Mime

open CxxStd

/-! ## Parts of a tree -/

def isAlternative (e : Entity) : Bool := e.isMultipart && e.subtype = str "alternative"

/-- `Lies root inMessage underAlternative x`: `x` is a part of `root` at any depth, inside a
`message/rfc822` or under a `multipart/alternative` of it or not. -/
inductive Lies : Entity → Bool → Bool → Entity → Prop
  | here (e : Entity) : Lies e false false e
  | part {e p x : Entity} {inMessage underAlternative : Bool} (hp : p ∈ e.parts)
      (hx : Lies p inMessage underAlternative x) :
      Lies e (e.isMessage || inMessage) (isAlternative e || underAlternative) x

inductive WellFormed : Entity → Prop
  | intro (e : Entity) (hkind : e.parts ≠ [] → e.isMultipart ∨ e.isMessage)
      (hraw : ∀ p ∈ e.parts, p.rawBody <:+: e.rawBody) (hparts : ∀ p ∈ e.parts, WellFormed p) :
      WellFormed e

theorem isInfix_rawBody {e x : Entity} {inMessage underAlternative : Bool}
    (hx : Lies e inMessage underAlternative x) (he : WellFormed e) : x.rawBody <:+: e.rawBody := by
  induction hx with
  | here e => exact List.infix_refl _
  | part hp hx ih =>
    obtain ⟨_, hkind, hraw, hparts⟩ := he
    exact (ih (hparts _ hp)).trans (hraw _ hp)

theorem isMessage_of_isMultipart {e : Entity} (h : e.isMultipart = true) : e.isMessage = false := by
  simp only [Entity.isMultipart, decide_eq_true_eq] at h
  have htype : (decide (str "multipart" = str "message") : Bool) = false := by decide
  simp only [Entity.isMessage, h, htype, Bool.false_and]

/-- The head of an entity has no parts yet, and its raw body is the end of the source. -/
theorem entityHead_spec (icu : Converter) (source : Bytes) :
    (entityHead icu source).parts = [] ∧ (entityHead icu source).rawBody <:+ source := by
  simp only [entityHead]
  exact ⟨trivial, List.drop_suffix _ _⟩

/-- The headers of an entity are those its source starts with, at every level. -/
theorem parseEntityAt_headers (icu : Converter) (levels : Nat) (source : Bytes) :
    (parseEntityAt icu levels source).headers = (parseHeaderBlock source).1 := by
  have hhead : (entityHead icu source).headers = (parseHeaderBlock source).1 := rfl
  cases levels with
  | zero => exact hhead
  | succ levels =>
    simp only [parseEntityAt]
    split
    · exact hhead
    · split <;> exact hhead

theorem parseEntityAt_rawBody (icu : Converter) (levels : Nat) (source : Bytes) :
    (parseEntityAt icu levels source).rawBody <:+: source := by
  have hhead := (entityHead_spec icu source).2.isInfix
  cases levels with
  | zero => exact hhead
  | succ levels =>
    simp only [parseEntityAt]
    split
    · exact hhead
    · split <;> exact hhead

theorem decoded_wellFormed {icu : Converter} {source : Bytes} :
    WellFormed (decoded (entityHead icu source)) := by
  have hparts : (decoded (entityHead icu source)).parts = [] := (entityHead_spec icu source).1
  refine .intro _ ?_ ?_ ?_ <;> simp [hparts]

theorem parseEntityAt_wellFormed (icu : Converter) (levels : Nat) (source : Bytes) :
    WellFormed (parseEntityAt icu levels source) := by
  induction levels generalizing source with
  | zero => exact decoded_wellFormed
  | succ levels ih =>
    simp only [parseEntityAt]
    split
    · rename_i hmulti
      refine .intro _ (fun _ => .inl hmulti.1) ?_ ?_
      · intro p hp
        obtain ⟨part, hpart, rfl⟩ := List.mem_map.1 hp
        exact (parseEntityAt_rawBody icu levels part).trans (infix_of_mem_splitParts hpart)
      · intro p hp
        obtain ⟨part, _, rfl⟩ := List.mem_map.1 hp
        exact ih part
    · split
      · rename_i hmessage
        refine .intro _ (fun _ => .inr hmessage) ?_ ?_
        · intro p hp
          rw [List.mem_singleton.1 hp]
          exact parseEntityAt_rawBody icu levels _
        · intro p hp
          rw [List.mem_singleton.1 hp]
          exact ih _
      · exact decoded_wellFormed

/-! ## The leaves of the walk -/

/-- An entity the walk does not descend into, and whether it is directly under a
multipart/alternative. -/
structure Leaf where
  inAlternative : Bool
  entity : Entity

mutual

/-- The entities below the multiparts of `e`, in the order of the walk. -/
def leaves (inAlternative : Bool) (e : Entity) : List Leaf :=
  if e.isMultipart then leavesOfParts (e.subtype = str "alternative") e.parts
  else [⟨inAlternative, e⟩]
termination_by 2 * sizeOf e + 1
decreasing_by cases e; simp only [Entity.mk.sizeOf_spec]; omega

def leavesOfParts (inAlternative : Bool) (parts : List Entity) : List Leaf :=
  match parts with
  | [] => []
  | part :: parts => leaves inAlternative part ++ leavesOfParts inAlternative parts
termination_by 2 * sizeOf parts

end

theorem mem_leavesOfParts {inAlternative : Bool} {parts : List Entity} {l : Leaf} :
    l ∈ leavesOfParts inAlternative parts ↔ ∃ p ∈ parts, l ∈ leaves inAlternative p := by
  induction parts with
  | nil => simp [leavesOfParts]
  | cons p parts ih => simp [leavesOfParts, ih]

section

variable (icu : Converter) (build : Option (Entity → Message))

/-- One step of the walk. -/
def meet (out : Message) (l : Leaf) : Message :=
  collectLeaf icu build l.inAlternative l.entity out

mutual

theorem collect_eq_foldl (inAlternative : Bool) (e : Entity) (out : Message) :
    collect icu build inAlternative e out = (leaves inAlternative e).foldl (meet icu build) out := by
  rw [collect, leaves]
  split
  · exact collectParts_eq_foldl _ e.parts out
  · rfl
termination_by 2 * sizeOf e + 1
decreasing_by cases e; simp only [Entity.mk.sizeOf_spec]; omega

theorem collectParts_eq_foldl (inAlternative : Bool) (parts : List Entity) (out : Message) :
    collectParts icu build inAlternative parts out =
      (leavesOfParts inAlternative parts).foldl (meet icu build) out := by
  match parts with
  | [] => rw [collectParts, leavesOfParts]; rfl
  | part :: parts =>
    rw [collectParts, leavesOfParts, List.foldl_append, collect_eq_foldl inAlternative part out]
    exact collectParts_eq_foldl inAlternative parts _
termination_by 2 * sizeOf parts

end

/-- The leaves that `collectLeaf` makes attachments. -/
def becomesAttachment (e : Entity) : Bool := e.isMessage || isAttachment e || e.type_ ≠ str "text"

def isHtml (e : Entity) : Bool := e.subtype = str "html"

def textOf (e : Entity) : Bytes := toUtf8 icu e.body e.charset

/-- What the attachment of `e` holds. -/
def carried (e : Entity) : Bytes := if e.isMessage ∧ e.parts ≠ [] then e.rawBody else e.body

/-- The html body, or the text body. -/
def bodyOf (html : Bool) (m : Message) : Bytes := if html then m.bodyHtml else m.bodyText

/-- The entries for one of the two bodies, in the order of the walk. -/
def entries (html : Bool) (ls : List Leaf) : List (Slot.Entry Bytes) :=
  (ls.filter fun l => !becomesAttachment l.entity && isHtml l.entity == html).map fun l =>
    (l.inAlternative, textOf icu l.entity)

variable {icu build}

theorem meet_body (html : Bool) (out : Message) (l : Leaf) :
    bodyOf html (meet icu build out l) =
      if !becomesAttachment l.entity && isHtml l.entity == html then
        Slot.fill [] (bodyOf html out) (l.inAlternative, textOf icu l.entity)
      else bodyOf html out := by
  obtain ⟨inAlternative, e⟩ := l
  simp only [meet, collectLeaf, becomesAttachment]
  by_cases hmessage : e.isMessage = true
  · simp [hmessage, addAttachment, bodyOf]
  by_cases hattachment : isAttachment e = true
  · simp [hmessage, hattachment, addAttachment, bodyOf]
  by_cases htext : e.type_ = str "text"
  · by_cases hsub : e.subtype = str "html" <;> cases html <;>
      simp [hmessage, hattachment, htext, hsub, isHtml, bodyOf, textOf, Slot.fill, fillBody]
  · simp [hmessage, hattachment, htext, addAttachment, bodyOf]

theorem foldl_meet_body (html : Bool) (ls : List Leaf) (out : Message) :
    bodyOf html (ls.foldl (meet icu build) out) =
      (entries icu html ls).foldl (Slot.fill []) (bodyOf html out) := by
  induction ls generalizing out with
  | nil => rfl
  | cons l ls ih =>
    rw [List.foldl_cons, ih, meet_body]
    simp only [entries, List.filter_cons]
    split
    · rw [List.map_cons, List.foldl_cons]
    · rfl

theorem attachmentOf_data (f : Entity → Message) (e : Entity) (count : Nat) :
    (attachmentOf (some f) e count).data = carried e := by
  simp only [attachmentOf, carried]
  by_cases hmessage : e.isMessage = true
  · cases hparts : e.parts with
    | nil => simp [hmessage]
    | cons first rest => simp [hmessage]
  · simp [hmessage]

/-- The entities among the leaves that become attachments. -/
def attached (ls : List Leaf) : List Entity :=
  (ls.filter fun l => becomesAttachment l.entity).map Leaf.entity

theorem meet_attachments (out : Message) (l : Leaf) :
    (meet icu build out l).attachments = out.attachments ++
      if becomesAttachment l.entity then
        [attachmentOf build l.entity out.attachments.length]
      else [] := by
  obtain ⟨inAlternative, e⟩ := l
  simp only [meet, collectLeaf, becomesAttachment]
  by_cases hmessage : e.isMessage = true
  · simp [hmessage, addAttachment]
  by_cases hattachment : isAttachment e = true
  · simp [hmessage, hattachment, addAttachment]
  by_cases htext : e.type_ = str "text"
  · by_cases hsub : e.subtype = str "html" <;> simp [hmessage, hattachment, htext, hsub]
  · simp [hmessage, hattachment, htext, addAttachment]

theorem foldl_meet_attachments (ls : List Leaf) (out : Message) :
    (ls.foldl (meet icu build) out).attachments = out.attachments ++
      ((attached ls).zipIdx out.attachments.length).map fun x => attachmentOf build x.1 x.2 := by
  induction ls generalizing out with
  | nil => simp [attached]
  | cons l ls ih =>
    rw [List.foldl_cons, ih, meet_attachments, attached, attached, List.filter_cons]
    split
    · rw [List.append_assoc, List.length_append, List.map_cons, List.zipIdx_cons, List.map_cons]
      rfl
    · rw [List.append_nil]

/-! ## The message of a tree -/

/-- The message with other bodies and attachments. -/
def withParts (out : Message) (bodyText bodyHtml : Bytes) (attachments : List Attachment) : Message :=
  { out with bodyText, bodyHtml, attachments }

/-- A leaf touches the bodies and the attachments only. -/
theorem meet_frame (build : Option (Entity → Message)) (out : Message) (l : Leaf) :
    ∃ text html attachments, meet icu build out l = withParts out text html attachments := by
  unfold meet collectLeaf addAttachment
  repeat' split
  all_goals exact ⟨_, _, _, rfl⟩

theorem foldl_meet_frame (build : Option (Entity → Message)) (ls : List Leaf) (out : Message) :
    ∃ text html attachments,
      ls.foldl (meet icu build) out = withParts out text html attachments := by
  induction ls generalizing out with
  | nil => exact ⟨out.bodyText, out.bodyHtml, out.attachments, by cases out; rfl⟩
  | cons l ls ih =>
    obtain ⟨_, _, _, hmeet⟩ := meet_frame build out l
    obtain ⟨text, html, attachments, hrest⟩ := ih (meet icu build out l)
    rw [List.foldl_cons, hrest, hmeet]
    exact ⟨text, html, attachments, rfl⟩

variable (icu)

/-- The walk leaves what was read off the headers as it is. -/
theorem buildMessageAt_frame (levels : Nat) (e : Entity) :
    ∃ text html attachments, buildMessageAt icu levels e =
      withParts (recoverHiddenRecipients icu e (messageHead icu e)) text html attachments := by
  cases levels with
  | zero =>
    rw [buildMessageAt, collect_eq_foldl]
    exact foldl_meet_frame none _ _
  | succ levels =>
    rw [buildMessageAt, collect_eq_foldl]
    exact foldl_meet_frame (some (buildMessageAt icu levels)) _ _

theorem buildMessageAt_headers (levels : Nat) (e : Entity) :
    (buildMessageAt icu levels e).headers =
      e.headers.map fun h => ⟨h.name, headerText icu h.value⟩ := by
  obtain ⟨_, _, _, h⟩ := buildMessageAt_frame icu levels e
  rw [h]
  unfold withParts recoverHiddenRecipients
  split <;> rfl

/-- The bodies of a message, by the text leaves of its tree. -/
theorem buildMessageAt_body (levels : Nat) (html : Bool) (e : Entity) :
    bodyOf html (buildMessageAt icu levels e) =
      Slot.fillAll [] (entries icu html (leaves false e)) := by
  have hhead : bodyOf html (recoverHiddenRecipients icu e (messageHead icu e)) = [] := by
    unfold recoverHiddenRecipients
    split <;> cases html <;> rfl
  cases levels with
  | zero =>
    rw [buildMessageAt, collect_eq_foldl, foldl_meet_body, hhead]
    rfl
  | succ levels =>
    rw [buildMessageAt, collect_eq_foldl, foldl_meet_body, hhead]
    rfl

theorem buildMessage_body (html : Bool) (e : Entity) (depth : Nat) :
    bodyOf html (buildMessage icu e depth) =
      Slot.fillAll [] (entries icu html (leaves false e)) := buildMessageAt_body icu _ html e

/-- What `buildMessageAt` makes messages of embedded entities with. -/
def embeddedBuilder : Nat → Option (Entity → Message)
  | 0 => none
  | levels + 1 => some (buildMessageAt icu levels)

theorem embedded_eq_some_iff {x : Entity} {levels count : Nat} {n : Message} :
    (attachmentOf (embeddedBuilder icu levels) x count).embedded = some n ↔
      x.isMessage = true ∧ ∃ first ∈ x.parts.head?, ∃ below, levels = below + 1 ∧
        n = buildMessageAt icu below first := by
  unfold attachmentOf
  cases hmessage : x.isMessage with
  | false => simp
  | true =>
    cases hparts : x.parts with
    | nil => simp
    | cons first rest =>
      cases levels with
      | zero => simp [embeddedBuilder]
      | succ levels =>
        simp only [embeddedBuilder, if_true, Option.some.injEq, List.head?_cons, Option.mem_def,
          true_and, exists_eq_left', Nat.add_right_cancel_iff]
        exact eq_comm

/-- The attachments of a message, by the other leaves of its tree. -/
theorem buildMessageAt_attachments (levels : Nat) (e : Entity) :
    (buildMessageAt icu levels e).attachments = (attached (leaves false e)).zipIdx.map
      fun x => attachmentOf (embeddedBuilder icu levels) x.1 x.2 := by
  have hhead : (recoverHiddenRecipients icu e (messageHead icu e)).attachments = [] := by
    unfold recoverHiddenRecipients
    split <;> rfl
  have hall := @foldl_meet_attachments icu (embeddedBuilder icu levels) (leaves false e)
    (recoverHiddenRecipients icu e (messageHead icu e))
  rw [hhead, List.nil_append, List.length_nil] at hall
  cases levels with
  | zero =>
    rw [buildMessageAt, collect_eq_foldl]
    exact hall
  | succ levels =>
    rw [buildMessageAt, collect_eq_foldl]
    exact hall

/-- Each attachment is that of one of these leaves, and each of these leaves has one. -/
theorem mem_attachments {levels : Nat} {e : Entity} {a : Attachment}
    (ha : a ∈ (buildMessageAt icu levels e).attachments) :
    ∃ x ∈ attached (leaves false e), ∃ k, a = attachmentOf (embeddedBuilder icu levels) x k := by
  rw [buildMessageAt_attachments] at ha
  obtain ⟨⟨x, k⟩, hpair, rfl⟩ := List.mem_map.1 ha
  refine ⟨x, ?_, k, rfl⟩
  rw [← List.zipIdx_map_fst 0 (attached (leaves false e))]
  exact List.mem_map.2 ⟨(x, k), hpair, rfl⟩

theorem exists_attachment (levels : Nat) {e x : Entity} (hx : x ∈ attached (leaves false e)) :
    ∃ k, attachmentOf (embeddedBuilder icu levels) x k ∈
      (buildMessageAt icu levels e).attachments := by
  rw [← List.zipIdx_map_fst 0 (attached (leaves false e))] at hx
  obtain ⟨⟨x, k⟩, hpair, rfl⟩ := List.mem_map.1 hx
  rw [buildMessageAt_attachments]
  exact ⟨k, List.mem_map.2 ⟨(x, k), hpair, rfl⟩⟩

end

/-! ## What lies in a tree belongs to a leaf -/

/-- `Belongs inAlternative e inMessage underAlternative x before l after`: the part `x` of `e` is
the leaf `l` of the walk or lies in the message `l`, and the other leaves are those before and
after. -/
inductive Belongs : Bool → Entity → Bool → Bool → Entity → List Leaf → Leaf → List Leaf → Prop
  | leaf {inAlternative inMessage underAlternative : Bool} {e x : Entity}
      (hleaf : e.isMultipart = false) (hx : Lies e inMessage underAlternative x) :
      Belongs inAlternative e inMessage underAlternative x [] ⟨inAlternative, e⟩ []
  | part {inAlternative inMessage underAlternative : Bool} {e p x : Entity}
      {front back : List Entity} {before after : List Leaf} {l : Leaf}
      (hmulti : e.isMultipart = true) (hparts : e.parts = front ++ p :: back)
      (hx : Belongs (e.subtype = str "alternative") p inMessage underAlternative x before l after) :
      Belongs inAlternative e inMessage (isAlternative e || underAlternative) x
        (leavesOfParts (e.subtype = str "alternative") front ++ before) l
        (after ++ leavesOfParts (e.subtype = str "alternative") back)

theorem leavesOfParts_append (inAlternative : Bool) (front back : List Entity) :
    leavesOfParts inAlternative (front ++ back) =
      leavesOfParts inAlternative front ++ leavesOfParts inAlternative back := by
  induction front with
  | nil => simp [leavesOfParts]
  | cons p front ih => simp [leavesOfParts, ih]

section

variable {inAlternative inMessage underAlternative : Bool} {e x : Entity}
  {before after : List Leaf} {l : Leaf}

theorem Lies.of_not_multipart (h : Lies e inMessage underAlternative x) (he : WellFormed e)
    (hleaf : e.isMultipart = false) :
    inMessage = false ∧ e = x ∨ inMessage = true ∧ e.isMessage = true ∧ e.parts ≠ [] := by
  cases h with
  | here e => exact .inl ⟨rfl, rfl⟩
  | part hp hx =>
    obtain ⟨_, hkind, -, -⟩ := he
    have hne := List.ne_nil_of_mem hp
    have hmessage := (hkind hne).resolve_left (by rw [hleaf]; exact Bool.false_ne_true)
    exact .inr ⟨by rw [hmessage, Bool.true_or], hmessage, hne⟩

namespace Belongs

theorem not_multipart (h : Belongs inAlternative e inMessage underAlternative x before l after) :
    l.entity.isMultipart = false := by
  induction h with
  | leaf hleaf hx => exact hleaf
  | part hmulti hparts hx ih => exact ih

theorem wellFormed (h : Belongs inAlternative e inMessage underAlternative x before l after)
    (he : WellFormed e) : WellFormed l.entity := by
  induction h with
  | leaf hleaf hx => exact he
  | part hmulti hparts hx ih =>
    obtain ⟨_, -, -, hwell⟩ := he
    exact ih (hwell _ (by simp [hparts]))

theorem lies (h : Belongs inAlternative e inMessage underAlternative x before l after) :
    ∃ under, Lies l.entity inMessage under x := by
  induction h with
  | leaf hleaf hx => exact ⟨_, hx⟩
  | part hmulti hparts hx ih => exact ih

/-- Inside messages its leaf is the outermost of them, whose source holds it. -/
theorem message (h : Belongs inAlternative e true underAlternative x before l after)
    (he : WellFormed e) :
    l.entity.isMessage = true ∧ l.entity.parts ≠ [] ∧ x.rawBody <:+: l.entity.rawBody := by
  obtain ⟨under, hlies⟩ := h.lies
  rcases hlies.of_not_multipart (h.wellFormed he) h.not_multipart with ⟨hout, -⟩ | ⟨-, hmessage, hne⟩
  · cases hout
  · exact ⟨hmessage, hne, isInfix_rawBody hlies (h.wellFormed he)⟩

end Belongs

end

end Mime
end Imap2Pst
