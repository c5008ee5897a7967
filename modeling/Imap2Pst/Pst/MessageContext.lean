import Imap2Pst.Pst.Placement
import Imap2Pst.Pst.BuildMessage

/-!
# Pst.MessageContext

The property context of a message, read back: a property is there when the message has something
to say about it, and the ids that headers get are those of no other property.

* `made`          — of calls that are made under a condition, those that are.
* `messageCalls`  — the properties of a message and when they are set, in one list.
* `PcAt.calls`    — a reader finds a property whose condition holds, with its value, and no other.
-/

namespace Imap2Pst
namespace Pst

open CxxStd

/-! ## Calls under a condition -/

/-- The calls whose condition holds. -/
def made (calls : List (Bool × Setter)) : List Setter :=
  calls.flatMap fun p => if p.1 then [p.2] else []

theorem made_append (calls calls' : List (Bool × Setter)) :
    made (calls ++ calls') = made calls ++ made calls' := List.flatMap_append

/-- The tag of a call and the width of its value. -/
def Setter.shape (c : Setter) : Nat × Nat := (c.tag, c.width)

theorem Setter.tag_spilledValue (tag : Nat) (nid : UInt32) :
    (Setter.spilledValue tag nid).tag = tag := rfl

theorem Setter.matches_spilledValue {tag : Nat} (nid : UInt32)
    (h : fixedPropSize (tagType tag) = 0) : (Setter.spilledValue tag nid).Matches := h

theorem Setter.tag_object (tag : Nat) (nid size : UInt32) :
    (Setter.object tag nid size).tag = tag := rfl

theorem Setter.matches_object {tag : Nat} {nid size : UInt32}
    (h : fixedPropSize (tagType tag) = 0) : (Setter.object tag nid size).Matches := h

theorem lastSetter_cons (id : Nat) (c : Setter) (cs : List Setter) : lastSetter id (c :: cs) =
    (lastSetter id cs).or (if tagId c.tag = id then some c else none) := by
  by_cases h : tagId c.tag = id <;>
    simp [lastSetter, h, List.getLast?_cons]

theorem lastSetter_none {id : Nat} {cs : List Setter} (h : id ∉ cs.map fun c => tagId c.tag) :
    lastSetter id cs = none := by
  rw [Option.eq_none_iff_forall_ne_some]
  intro c hc
  obtain ⟨hmem, rfl⟩ := mem_of_lastSetter hc
  exact h (List.mem_map_of_mem hmem)

theorem made_ids_subset (calls : List (Bool × Setter)) :
    ((made calls).map fun c => tagId c.tag) ⊆ calls.map fun p => tagId p.2.tag := by
  intro id hid
  obtain ⟨c, hc, rfl⟩ := List.mem_map.1 hid
  obtain ⟨p, hp, hc⟩ := List.mem_flatMap.1 hc
  split at hc
  · rw [List.mem_singleton.1 hc]
    exact List.mem_map.2 ⟨p, hp, rfl⟩
  · exact absurd hc List.not_mem_nil

/-- When no two calls are for one property, it is due to its call. -/
theorem lastSetter_made {calls : List (Bool × Setter)}
    (hnodup : (calls.map fun p => tagId p.2.tag).Nodup) {p : Bool × Setter} (hp : p ∈ calls) :
    lastSetter (tagId p.2.tag) (made calls) = if p.1 then some p.2 else none := by
  induction calls with
  | nil => exact absurd hp List.not_mem_nil
  | cons q calls ih =>
    obtain ⟨hnew, hnodup⟩ := List.nodup_cons.1 hnodup
    have hmade : made (q :: calls) = (if q.1 then [q.2] else []) ++ made calls := rfl
    rw [hmade]
    rcases List.mem_cons.1 hp with rfl | hp
    · have hrest := lastSetter_none (mt (made_ids_subset calls ·) hnew)
      cases hset : p.1 with
      | false => simpa using hrest
      | true => simp [lastSetter_cons, hrest]
    · have hne : tagId q.2.tag ≠ tagId p.2.tag :=
        fun heq => hnew (List.mem_map.2 ⟨p, hp, heq.symm⟩)
      cases hset : q.1 with
      | false => simpa using ih hnodup hp
      | true => simp [lastSetter_cons, hne, ih hnodup hp]

/-! ## The properties of a message -/

def bodyCalls (m : Message) : List (Bool × Setter) :=
  [(true, .string PR_MESSAGE_CLASS (messageClass m)), (true, .string PR_SUBJECT m.subject),
    (true, .string PR_CONVERSATION_TOPIC m.subject), (m.bodyText ≠ [], .string PR_BODY m.bodyText),
    (m.bodyHtml ≠ [], .binary PR_HTML m.bodyHtml),
    (m.bodyHtml = [] ∧ m.bodyText ≠ [],
      .binary PR_RTF_COMPRESSED (rtfFromPlainText m.bodyText)),
    (m.bodyHtml = [] ∧ m.bodyText ≠ [], .bool PR_RTF_IN_SYNC true),
    (true, .int32 PR_INTERNET_CPID CP_UTF8.toUInt32),
    (true, .int32 PR_MESSAGE_CODEPAGE CP_UTF8.toUInt32)]

def addressCalls (m : Message) : List (Bool × Setter) :=
  [(m.sender.email ≠ [] ∨ m.sender.name ≠ [], .string PR_SENDER_NAME m.sender.display),
    (m.sender.email ≠ [] ∨ m.sender.name ≠ [], .string PR_SENDER_EMAIL_ADDRESS m.sender.email),
    (m.sender.email ≠ [] ∨ m.sender.name ≠ [], .string PR_SENDER_ADDRTYPE (str "SMTP")),
    (m.sender.email ≠ [] ∨ m.sender.name ≠ [],
      .string PR_SENT_REPRESENTING_NAME m.sender.display),
    (true, .string PR_DISPLAY_TO (joinMailboxes m.to_)),
    (m.cc ≠ [], .string PR_DISPLAY_CC (joinMailboxes m.cc)),
    (m.bcc ≠ [], .string PR_DISPLAY_BCC (joinMailboxes m.bcc))]

def timeCalls (created modified : Int) (m : Message) : List (Bool × Setter) :=
  [(true, setTime PR_MESSAGE_DELIVERY_TIME m.delivered),
    (true, setTime PR_CLIENT_SUBMIT_TIME m.sent), (true, setTime PR_CREATION_TIME created),
    (true, setTime PR_LAST_MODIFICATION_TIME modified)]

def flagCalls (m : Message) : List (Bool × Setter) :=
  [(true, .int32 PR_MESSAGE_FLAGS (messageFlags m)),
    (true, .int32 PR_FLAG_STATUS (if m.flags &&& kFlagFlagged ≠ 0 then
      FLAG_STATUS_FLAGGED.toUInt32 else FLAG_STATUS_NONE.toUInt32)),
    (true, .bool PR_HASATTACH (!m.attachments.isEmpty)),
    (m.flags &&& kFlagAnswered ≠ 0, .int32 PR_LAST_VERB_EXECUTED VERB_REPLYTOSENDER.toUInt32),
    (m.flags &&& kFlagAnswered ≠ 0, setTime PR_LAST_VERB_EXECUTION_TIME m.sent),
    (m.flags &&& kFlagAnswered ≠ 0, .int32 PR_ICON_INDEX ICON_MAIL_REPLIED.toUInt32)]

/-- In a store the id of keywords is the first one. -/
def keywordCalls (m : Message) : List (Bool × Setter) :=
  [(m.keywords ≠ [], .stringArray (makeTag kFirstNamedId kPtMvUnicode) m.keywords)]

def idCalls (key : RecordKey) (nid : Nat) (embedded : Bool) (m : Message) : List (Bool × Setter) :=
  [(true, .int32 PR_MESSAGE_SIZE (messageSize m)),
    (m.messageId ≠ [], .string PR_INTERNET_MESSAGE_ID m.messageId),
    (m.inReplyTo ≠ [], .string PR_IN_REPLY_TO_ID m.inReplyTo),
    (embedded = false, .binary PR_ENTRYID (entryId key nid)),
    (embedded = false, .binary PR_SEARCH_KEY (searchKey key nid))]

def blobCalls (m : Message) : List (Bool × Setter) :=
  [(m.headerBlob ≠ [], .string PR_TRANSPORT_MESSAGE_HEADERS m.headerBlob)]

/-- Every property of a message but those named after headers, and when it is set. -/
def messageCalls (key : RecordKey) (nid : Nat) (embedded : Bool) (created modified : Int)
    (m : Message) : List (Bool × Setter) :=
  bodyCalls m ++ addressCalls m ++ timeCalls created modified m ++ flagCalls m ++ keywordCalls m ++
    idCalls key nid embedded m ++ blobCalls m

theorem made_bodyCalls (m : Message) : made (bodyCalls m) = bodySetters m := by
  by_cases htext : m.bodyText = [] <;> by_cases hhtml : m.bodyHtml = [] <;>
    simp [made, bodyCalls, bodySetters, htext, hhtml]

theorem made_addressCalls (m : Message) : made (addressCalls m) = addressSetters m := by
  by_cases hsender : m.sender.email ≠ [] ∨ m.sender.name ≠ [] <;> by_cases hcc : m.cc = [] <;>
    by_cases hbcc : m.bcc = [] <;> simp [made, addressCalls, addressSetters, hsender, hcc, hbcc]

theorem made_timeCalls (created modified : Int) (m : Message) :
    made (timeCalls created modified m) = timeSetters created modified m := rfl

theorem made_flagCalls (m : Message) : made (flagCalls m) = flagSetters m := by
  by_cases hanswered : m.flags &&& kFlagAnswered = 0 <;>
    simp [made, flagCalls, flagSetters, hanswered]

theorem made_keywordCalls {id : Nat} {m : Message} (hid : m.keywords ≠ [] → id = kFirstNamedId) :
    made (keywordCalls m) = keywordSetters id m := by
  by_cases hkeywords : m.keywords = []
  · simp [made, keywordCalls, keywordSetters, hkeywords]
  · simp [made, keywordCalls, keywordSetters, hkeywords, hid hkeywords, kFirstNamedId]

theorem made_idCalls (key : RecordKey) (nid : Nat) (embedded : Bool) (m : Message) :
    made (idCalls key nid embedded m) = idSetters key nid embedded m := by
  by_cases hid : m.messageId = [] <;> by_cases hreply : m.inReplyTo = [] <;>
    cases embedded <;> simp [made, idCalls, idSetters, hid, hreply]

theorem made_messageCalls {key : RecordKey} {nid : Nat} {embedded : Bool} {created modified : Int}
    {id : Nat} {m : Message} (hid : m.keywords ≠ [] → id = kFirstNamedId) :
    built (made (messageCalls key nid embedded created modified m)) =
      setBlob (built (messageSetters key nid embedded created modified id m)) m := by
  have hall : made (messageCalls key nid embedded created modified m) =
      messageSetters key nid embedded created modified id m ++ made (blobCalls m) := by
    simp only [messageCalls, made_append, made_bodyCalls, made_addressCalls, made_timeCalls,
      made_flagCalls, made_keywordCalls hid, made_idCalls, messageSetters]
  rw [hall, built, List.foldl_append]
  by_cases hblob : m.headerBlob = []
  · simp [made, blobCalls, setBlob, hblob, built]
  · simp [made, blobCalls, setBlob, hblob, built, Setter.apply]

/-- The tags of these properties, each with the width of its value. -/
def messageShapes : List (Nat × Nat) :=
  [(PR_MESSAGE_CLASS, 0), (PR_SUBJECT, 0), (PR_CONVERSATION_TOPIC, 0), (PR_BODY, 0), (PR_HTML, 0),
    (PR_RTF_COMPRESSED, 0), (PR_RTF_IN_SYNC, 1), (PR_INTERNET_CPID, 4), (PR_MESSAGE_CODEPAGE, 4),
    (PR_SENDER_NAME, 0), (PR_SENDER_EMAIL_ADDRESS, 0), (PR_SENDER_ADDRTYPE, 0),
    (PR_SENT_REPRESENTING_NAME, 0), (PR_DISPLAY_TO, 0), (PR_DISPLAY_CC, 0), (PR_DISPLAY_BCC, 0),
    (PR_MESSAGE_DELIVERY_TIME, 8), (PR_CLIENT_SUBMIT_TIME, 8), (PR_CREATION_TIME, 8),
    (PR_LAST_MODIFICATION_TIME, 8), (PR_MESSAGE_FLAGS, 4), (PR_FLAG_STATUS, 4), (PR_HASATTACH, 1),
    (PR_LAST_VERB_EXECUTED, 4), (PR_LAST_VERB_EXECUTION_TIME, 8), (PR_ICON_INDEX, 4),
    (makeTag kFirstNamedId kPtMvUnicode, 0), (PR_MESSAGE_SIZE, 4), (PR_INTERNET_MESSAGE_ID, 0),
    (PR_IN_REPLY_TO_ID, 0), (PR_ENTRYID, 0), (PR_SEARCH_KEY, 0),
    (PR_TRANSPORT_MESSAGE_HEADERS, 0)]

theorem shape_messageCalls (key : RecordKey) (nid : Nat) (embedded : Bool) (created modified : Int)
    (m : Message) : (messageCalls key nid embedded created modified m).map (fun p => p.2.shape) =
      messageShapes := by
  simp only [messageCalls, bodyCalls, addressCalls, timeCalls, flagCalls, keywordCalls, idCalls,
    blobCalls, setTime, List.map_cons, List.map_nil, Setter.shape, Setter.tag, Setter.width,
    List.cons_append, List.nil_append, messageShapes]

theorem messageShapes_nodup : (messageShapes.map fun s => tagId s.1).Nodup := by decide

theorem messageShapes_matching : ∀ s ∈ messageShapes, fixedPropSize (tagType s.1) = s.2 := by
  decide

/-! ## The ids of names -/

theorem HoldsNames.keywordsId {seen : List Bytes} {names : NameIdMap} (h : HoldsNames seen names)
    {m : Message} (hm : m.keywords ≠ []) : (keywordsId m names).1 = kFirstNamedId := by
  have hsafe : SafeFrom (headerTable seen) [.idForString kPsPublicStrings keywordsName] := by
    refine safe_of_few h.table ?_
    show ((headerTable seen).step (.idForString kPsPublicStrings keywordsName)).guids.length + 2 <
      2 ^ 15
    rw [headerTable_keywords]
    exact (by decide : ([kPsInternetHeaders] : List Guid).length + 2 < 2 ^ 15)
  have hid := (h.represents.step h.table hsafe.1).2 keywordsNamed rfl
  have hfirst : (headerTable seen).names[0]? = some keywordsNamed := rfl
  rw [headerTable_keywords, NameTable.idOf_name h.table hfirst] at hid
  rw [Pst.keywordsId, if_neg hm]
  exact hid

theorem HoldsNames.keywords {seen : List Bytes} {names : NameIdMap} (h : HoldsNames seen names)
    (m : Message) : HoldsNames seen (Pst.keywordsId m names).2 := by
  unfold Pst.keywordsId
  split
  · exact h
  · exact h.call (c := .idForString kPsPublicStrings keywordsName) (headerTable_keywords seen)

/-- The id of a header name comes after that of keywords. -/
theorem HoldsNames.headerId_gt {seen : List Bytes} {names : NameIdMap} (h : HoldsNames seen names)
    {name : Bytes} {id : Nat} (hid : headerId names name = some id) : kFirstNamedId < id := by
  rw [headerId, NameIdMap.guidIndex_eq, h.represents.guids] at hid
  have hguid : (headerTable seen).guids = [kPsInternetHeaders] := rfl
  rw [hguid, see_internetHeaders] at hid
  obtain ⟨i, n, hn, hw, -, rfl⟩ := (h.represents.lookup _ _ _).1 hid
  cases i with
  | zero =>
    have hfirst : (headerTable seen).names[0]? = some keywordsNamed := rfl
    obtain rfl := Option.some.inj (hfirst.symm.trans hn)
    have hne : wGuid [kPsInternetHeaders] keywordsNamed.guid ≠
        wGuid [kPsInternetHeaders] kPsInternetHeaders % 2 ^ 16 := by decide
    exact absurd hw hne
  | succ i => omega

/-- The names do not depend on the context that the properties go to. -/
theorem setNamed_names (order : List HeaderGroup) (pc pc' : PropertyContext) (names : NameIdMap) :
    (setNamed order pc names).2 = (setNamed order pc' names).2 := by
  induction order generalizing pc pc' names with
  | nil => rfl
  | cons g order ih =>
    by_cases hzero : (names.idForString kPsInternetHeaders g.spelling).1 = 0
    · rw [setNamed_stop hzero, setNamed_stop hzero]
    · rw [setNamed_cons hzero, setNamed_cons hzero]
      exact ih _ _ _

section

variable {key : RecordKey} {nid : Nat} {embedded : Bool} {created modified : Int} {m : Message}
  {names : NameIdMap}

theorem messageProperties_eq : messageProperties key nid embedded created modified m names =
    setNamed (joinHeaders m.headers)
      (setBlob (built (messageSetters key nid embedded created modified (keywordsId m names).1 m))
        m)
      (keywordsId m names).2 := rfl

theorem messageProperties_names :
    (messageProperties key nid embedded created modified m names).2 = buildNames m names := by
  rw [messageProperties_eq, buildNames, applyHeaderProperties]
  have hnames : (keywordsId m names).2 = if m.keywords = [] then names
      else (names.idForString kPsPublicStrings keywordsName).2 := by
    unfold keywordsId
    split <;> rfl
  rw [hnames]
  exact setNamed_names _ _ _ _

/-- Up to the id of keywords nothing comes from a name of a header. -/
theorem find_messageProperties {seen : List Bytes} (h : HoldsNames seen names) {id : Nat}
    (hid : id ≤ kFirstNamedId) :
    (messageProperties key nid embedded created modified m names).1.find id =
      (built (made (messageCalls key nid embedded created modified m))).find id := by
  have hafter : HoldsNames _ (messageProperties key nid embedded created modified m names).2 :=
    messageProperties_names ▸ h.buildNames m
  have hspec := setNamed_spec (h.keywords m).map (joinHeaders m.headers)
    (setBlob (built (messageSetters key nid embedded created modified (keywordsId m names).1 m)) m)
  rw [← messageProperties_eq] at hspec
  rw [made_messageCalls fun hm => h.keywordsId hm]
  refine (hspec.only id).resolve_right ?_
  rintro ⟨g, -, hg⟩
  have hlt := hafter.headerId_gt hg
  omega

end

/-! ## Reading -/

/-- What a reader finds for a value, unless it is in a subnode that has it already. -/
def PcValue.read : PcValue → Option PropValue
  | .inline v => some (.inline v)
  | .bytes b => some (.octets b)
  | .spilled _ => none

/-- A property that a call has set reads back. -/
theorem PcAt.call {w : NdbWriter} {h : HeapNode} {entries : List SubnodeEntry}
    {pc : PropertyContext} (hp : PcAt w h entries pc) (hok : h.Ok) {n : NodeView}
    (hreads : NodeReads n h entries) {store : Store} (hc : Covers store w) {c : Setter}
    (hm : c.Matches) (hfind : pc.find (tagId c.tag) = some (c.tag, c.kept)) {v : PropValue}
    (hv : c.kept.read = some v) :
    readProperty store n (tagId c.tag) = some (tagType c.tag, v) := by
  refine (hp.reads_view hok hreads hc).1 (c.tag, c.kept) (List.mem_of_find?_eq_some hfind)
    hm.typed v ?_
  generalize hkept : c.kept = kept at hv
  cases kept with
  | inline x =>
    cases hv
    have hmeans := @Means.inline w h.blocks entries x
    rwa [Nat.mod_eq_of_lt (Setter.kept_lt hkept)] at hmeans
  | bytes b =>
    cases hv
    exact .bytes b
  | spilled nid => cases hv

/-- So does one in a subnode that has it already. -/
theorem PcAt.spilled {w : NdbWriter} {h : HeapNode} {entries : List SubnodeEntry}
    {pc : PropertyContext} (hp : PcAt w h entries pc) (hok : h.Ok) {n : NodeView}
    (hreads : NodeReads n h entries) {store : Store} (hc : Covers store w) {tag nid : Nat}
    {leaves : List Bytes} (htype : fixedPropSize (tagType tag) = 0) (hnid : nid < 2 ^ 32)
    (hfind : pc.find (tagId tag) = some (tag, .spilled nid))
    (hv : ∀ blocks, Stored w blocks entries nid leaves) :
    readProperty store n (tagId tag) = some (tagType tag, .octets leaves.flatten) := by
  have htyped := (Setter.matches_spilledValue nid.toUInt32 htype).typed
  rw [Setter.kept, Setter.tag, UInt32.toNat_ofNat', Nat.mod_eq_of_lt hnid] at htyped
  exact (hp.reads_view hok hreads hc).1 (tag, .spilled nid) (List.mem_of_find?_eq_some hfind)
    htyped _ (.spilled hnid (hv h.blocks))

/-- What a reader is to find for calls under a condition. -/
def callValue (p : Bool × Setter) : Option (Nat × PropValue) :=
  if p.1 then p.2.kept.read.map fun v => (tagType p.2.tag, v) else none

/-- Calls for properties of their own read back, whatever else is in the context. -/
theorem PcAt.calls {w : NdbWriter} {h : HeapNode} {entries : List SubnodeEntry}
    {pc : PropertyContext} (hp : PcAt w h entries pc) (hok : h.Ok) {n : NodeView}
    (hreads : NodeReads n h entries) {store : Store} (hc : Covers store w)
    {calls : List (Bool × Setter)} (hnodup : (calls.map fun p => tagId p.2.tag).Nodup)
    (hfind : ∀ p ∈ calls, pc.find (tagId p.2.tag) = (built (made calls)).find (tagId p.2.tag))
    {p : Bool × Setter} (hmem : p ∈ calls) (hm : p.2.Matches) (hkept : p.2.kept.read.isSome) :
    readProperty store n (tagId p.2.tag) = callValue p := by
  have hlast := hfind p hmem
  rw [find_built, lastSetter_made hnodup hmem] at hlast
  obtain ⟨v, hv⟩ := Option.isSome_iff_exists.1 hkept
  unfold callValue
  cases hset : p.1 with
  | true =>
    rw [hset] at hlast
    rw [if_pos rfl, hv]
    exact hp.call hok hreads hc hm hlast hv
  | false =>
    rw [hset] at hlast
    rw [if_neg (by simp)]
    exact (hp.reads_view hok hreads hc).2 _ hlast

end Pst
end Imap2Pst
