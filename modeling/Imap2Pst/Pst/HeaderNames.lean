import Imap2Pst.Core.Message
import Imap2Pst.Pst.NamedProperties

/-!
# Pst.HeaderNames

Header fields as named properties, translated from `PstWriter::applyHeaderProperties`.

* `joinHeaders` — the fields that have no property of their own, those of one name joined.
* `setNamed` — a named property for each, until there is no id for one.
* `header_properties_complete_iff` — when every name that has an id has its property.
-/

namespace Imap2Pst
namespace Pst

open CxxStd

/-! ## The code -/

/-- Headers that already have a structured MAPI property. -/
def kKnown : List Bytes :=
  [str "from", str "to", str "cc", str "bcc", str "reply-to", str "subject", str "date",
    str "message-id", str "in-reply-to"]

def isStructuredHeader (name : Bytes) : Bool := lower name ∈ kKnown

/-- The headers of one name: its key, the spelling seen first, and the values merged. -/
structure HeaderGroup where
  key : Bytes
  spelling : Bytes
  merged : Bytes
  deriving DecidableEq, Repr

def joinHeader (order : List HeaderGroup) (h : RawHeader) : List HeaderGroup :=
  if isStructuredHeader h.name then order
  else if lower h.name ∈ order.map HeaderGroup.key then
    order.map fun g =>
      if g.key = lower h.name then { g with merged := g.merged ++ [10] ++ h.value } else g
  else order ++ [⟨lower h.name, h.name, h.value⟩]

/-- The first loop: repeated headers are joined with newlines. -/
def joinHeaders (headers : List RawHeader) : List HeaderGroup := headers.foldl joinHeader []

/-- The second loop: a property for each name, until the name-to-id map is full. -/
def setNamed : List HeaderGroup → PropertyContext → NameIdMap → PropertyContext × NameIdMap
  | [], pc, names => (pc, names)
  | g :: order, pc, names =>
    let (id, names) := names.idForString kPsInternetHeaders g.spelling
    if id = 0 then (pc, names)
    else setNamed order (pc.setString (makeTag id kPtUnicode) g.merged) names

def setBlob (pc : PropertyContext) (msg : Message) : PropertyContext :=
  if msg.headerBlob = [] then pc else pc.setString PR_TRANSPORT_MESSAGE_HEADERS msg.headerBlob

def applyHeaderProperties (pc : PropertyContext) (msg : Message) (names : NameIdMap) :
    PropertyContext × NameIdMap :=
  setNamed (joinHeaders msg.headers) (setBlob pc msg) names

/-! ## Groups -/

/-- The values of the headers called `name`, up to case. -/
def valuesOf (headers : List RawHeader) (name : Bytes) : List Bytes :=
  (headers.filter fun h => lower h.name = lower name).map RawHeader.value

/-- The groups say what the headers say. -/
structure Joined (headers : List RawHeader) (order : List HeaderGroup) : Prop where
  nodup : (order.map HeaderGroup.key).Nodup
  key : ∀ g ∈ order, g.key = lower g.spelling
  free : ∀ g ∈ order, isStructuredHeader g.spelling = false
  merged : ∀ g ∈ order, g.merged = [(10 : Byte)].intercalate (valuesOf headers g.spelling)
  spelled : ∀ g ∈ order, ∃ h ∈ headers, h.name = g.spelling
  covers : ∀ h ∈ headers, isStructuredHeader h.name = false → lower h.name ∈ order.map HeaderGroup.key

theorem isStructuredHeader_congr {a b : Bytes} (h : lower a = lower b) :
    isStructuredHeader a = isStructuredHeader b := by
  rw [isStructuredHeader, isStructuredHeader, h]

theorem valuesOf_append (headers : List RawHeader) (h : RawHeader) (name : Bytes) :
    valuesOf (headers ++ [h]) name =
      valuesOf headers name ++ if lower h.name = lower name then [h.value] else [] := by
  rw [valuesOf, List.filter_append, List.map_append]
  by_cases heq : lower h.name = lower name
  · rw [if_pos heq, List.filter_cons_of_pos (by simpa using heq)]
    rfl
  · rw [if_neg heq, List.filter_cons_of_neg (by simpa using heq)]
    rfl

theorem valuesOf_ne_nil {headers : List RawHeader} {h : RawHeader} (hmem : h ∈ headers) :
    valuesOf headers h.name ≠ [] := by
  have hin : h.value ∈ valuesOf headers h.name :=
    List.mem_map_of_mem (List.mem_filter.2 ⟨hmem, decide_eq_true rfl⟩)
  exact List.ne_nil_of_mem hin

theorem intercalate_concat {values : List Bytes} (hsome : values ≠ []) (v : Bytes) :
    [(10 : Byte)].intercalate (values ++ [v]) = [(10 : Byte)].intercalate values ++ [10] ++ v := by
  induction values with
  | nil => exact absurd rfl hsome
  | cons a values ih =>
    cases values with
    | nil => simp [List.intercalate]
    | cons b values =>
      have hrest := ih (by simp)
      simp only [List.cons_append] at hrest
      simp only [List.cons_append, List.intercalate_cons_cons, hrest, List.append_assoc]

/-- The groups when a header with the key `key` and the value `v` joins one of them. -/
def mergeInto (order : List HeaderGroup) (key v : Bytes) : List HeaderGroup :=
  order.map fun g => if g.key = key then { g with merged := g.merged ++ [10] ++ v } else g

theorem mergeInto_keys (order : List HeaderGroup) (key v : Bytes) :
    (mergeInto order key v).map HeaderGroup.key = order.map HeaderGroup.key := by
  rw [mergeInto, List.map_map]
  refine List.map_congr_left fun g _ => ?_
  simp only [Function.comp_apply]
  split <;> rfl

theorem mem_mergeInto {order : List HeaderGroup} {key v : Bytes} {g : HeaderGroup}
    (hg : g ∈ mergeInto order key v) :
    ∃ g' ∈ order, g.key = g'.key ∧ g.spelling = g'.spelling ∧
      g.merged = if g'.key = key then g'.merged ++ [10] ++ v else g'.merged := by
  obtain ⟨g', hg', rfl⟩ := List.mem_map.1 hg
  refine ⟨g', hg', ?_⟩
  split <;> exact ⟨rfl, rfl, rfl⟩

namespace Joined

variable {headers : List RawHeader} {order : List HeaderGroup} (hj : Joined headers order)
  (h : RawHeader)

include hj

theorem spelled_append {g : HeaderGroup} (hg : g ∈ order) :
    ∃ h' ∈ headers ++ [h], h'.name = g.spelling := by
  obtain ⟨h', hmem, hname⟩ := hj.spelled g hg
  exact ⟨h', List.mem_append_left _ hmem, hname⟩

/-- What is merged already, when the new header has another name. -/
theorem merged_append {g : HeaderGroup} (hg : g ∈ order) (hne : lower h.name ≠ lower g.spelling) :
    g.merged = [(10 : Byte)].intercalate (valuesOf (headers ++ [h]) g.spelling) := by
  rw [valuesOf_append, if_neg hne, List.append_nil]
  exact hj.merged g hg

theorem step_structured (hstructured : isStructuredHeader h.name = true) :
    Joined (headers ++ [h]) order := by
  refine ⟨hj.nodup, hj.key, hj.free, fun g hg => hj.merged_append h hg ?_,
    fun g hg => hj.spelled_append h hg, ?_⟩
  · intro heq
    have hfree := hj.free g hg
    rw [← isStructuredHeader_congr heq, hstructured] at hfree
    cases hfree
  · intro h' hmem hfree
    rcases List.mem_append.1 hmem with hmem | hmem
    · exact hj.covers h' hmem hfree
    · rw [List.mem_singleton.1 hmem, hstructured] at hfree
      cases hfree

/-- A header whose name has a group. -/
theorem step_merge (hold : lower h.name ∈ order.map HeaderGroup.key) :
    Joined (headers ++ [h]) (mergeInto order (lower h.name) h.value) := by
  have hkeys := mergeInto_keys order (lower h.name) h.value
  refine ⟨hkeys ▸ hj.nodup, fun g hg => ?_, fun g hg => ?_, fun g hg => ?_, fun g hg => ?_,
    fun h' hmem hfree => ?_⟩
  · obtain ⟨g', hg', hkey, hspelling, -⟩ := mem_mergeInto hg
    rw [hkey, hspelling]
    exact hj.key g' hg'
  · obtain ⟨g', hg', -, hspelling, -⟩ := mem_mergeInto hg
    rw [hspelling]
    exact hj.free g' hg'
  · obtain ⟨g', hg', -, hspelling, hvalue⟩ := mem_mergeInto hg
    rw [hspelling, hvalue, hj.key g' hg']
    by_cases heq : lower g'.spelling = lower h.name
    · obtain ⟨h', hmem, hname⟩ := hj.spelled g' hg'
      have hsome : valuesOf headers g'.spelling ≠ [] := hname ▸ valuesOf_ne_nil hmem
      rw [if_pos heq, valuesOf_append, if_pos heq.symm, intercalate_concat hsome, hj.merged g' hg']
    · rw [if_neg heq]
      exact hj.merged_append h hg' (Ne.symm heq)
  · obtain ⟨g', hg', -, hspelling, -⟩ := mem_mergeInto hg
    rw [hspelling]
    exact hj.spelled_append h hg'
  · rw [hkeys]
    rcases List.mem_append.1 hmem with hmem | hmem
    · exact hj.covers h' hmem hfree
    · rw [List.mem_singleton.1 hmem]
      exact hold

/-- No header has the name yet that has no group. -/
theorem valuesOf_eq_nil (hfree : isStructuredHeader h.name = false)
    (hnew : lower h.name ∉ order.map HeaderGroup.key) : valuesOf headers h.name = [] := by
  rw [valuesOf, List.map_eq_nil_iff, List.filter_eq_nil_iff]
  intro h' hmem heq
  have hname := of_decide_eq_true heq
  exact hnew (hname ▸ hj.covers h' hmem ((isStructuredHeader_congr hname).trans hfree))

/-- A header with a new name. -/
theorem step_new (hfree : isStructuredHeader h.name = false)
    (hnew : lower h.name ∉ order.map HeaderGroup.key) :
    Joined (headers ++ [h]) (order ++ [⟨lower h.name, h.name, h.value⟩]) := by
  have hapart (g : HeaderGroup) (hg : g ∈ order) : lower h.name ≠ lower g.spelling := fun heq =>
    hnew (List.mem_map.2 ⟨g, hg, (hj.key g hg).trans heq.symm⟩)
  refine ⟨?_, fun g hg => ?_, fun g hg => ?_, fun g hg => ?_, fun g hg => ?_,
    fun h' hmem hfree' => ?_⟩
  · rw [List.map_append]
    refine List.nodup_append.2 ⟨hj.nodup, by simp, ?_⟩
    rintro a ha b hb rfl
    have hkey : a = lower h.name := List.mem_singleton.1 hb
    exact hnew (hkey ▸ ha)
  · rcases List.mem_append.1 hg with hg | hg
    · exact hj.key g hg
    · rw [List.mem_singleton.1 hg]
  · rcases List.mem_append.1 hg with hg | hg
    · exact hj.free g hg
    · rw [List.mem_singleton.1 hg]
      exact hfree
  · rcases List.mem_append.1 hg with hg | hg
    · exact hj.merged_append h hg (hapart g hg)
    · rw [List.mem_singleton.1 hg, valuesOf_append, hj.valuesOf_eq_nil h hfree hnew, if_pos rfl]
      simp [List.intercalate]
  · rcases List.mem_append.1 hg with hg | hg
    · exact hj.spelled_append h hg
    · rw [List.mem_singleton.1 hg]
      exact ⟨h, by simp, rfl⟩
  · rw [List.map_append]
    rcases List.mem_append.1 hmem with hmem | hmem
    · exact List.mem_append_left _ (hj.covers h' hmem hfree')
    · rw [List.mem_singleton.1 hmem]
      exact List.mem_append_right _ List.mem_cons_self

theorem step : Joined (headers ++ [h]) (joinHeader order h) := by
  unfold joinHeader
  split
  · rename_i hstructured
    exact hj.step_structured h hstructured
  · rename_i hstructured
    split
    · rename_i hold
      exact hj.step_merge h hold
    · rename_i hnew
      exact hj.step_new h (by simpa using hstructured) hnew

end Joined

theorem joined (headers : List RawHeader) : Joined headers (joinHeaders headers) := by
  induction headers using List.reverseRecOn with
  | nil => exact ⟨List.nodup_nil, by simp [joinHeaders], by simp [joinHeaders],
      by simp [joinHeaders], by simp [joinHeaders], by simp⟩
  | append_singleton headers h ih =>
    rw [joinHeaders, List.foldl_append]
    exact ih.step h

/-- The names of the headers that have no property of their own. -/
def plainNames (headers : List RawHeader) : List Bytes :=
  (headers.map RawHeader.name).filter fun name => !isStructuredHeader name

/-- A name is spelled as it was when it was first seen. -/
def addSpelling (seen : List Bytes) (name : Bytes) : List Bytes :=
  if lower name ∈ seen.map lower then seen else seen ++ [name]

def firstSpellings (names : List Bytes) : List Bytes := names.foldl addSpelling []

theorem firstSpellings_concat (names : List Bytes) (name : Bytes) :
    firstSpellings (names ++ [name]) = addSpelling (firstSpellings names) name := by
  rw [firstSpellings, List.foldl_append]
  rfl

/-- The groups come in the order in which their names were first seen. -/
theorem spelling_joinHeaders (headers : List RawHeader) :
    (joinHeaders headers).map HeaderGroup.spelling = firstSpellings (plainNames headers) := by
  induction headers using List.reverseRecOn with
  | nil => rfl
  | append_singleton headers h ih =>
    have hj := joined headers
    have hkeys : (joinHeaders headers).map HeaderGroup.key =
        ((joinHeaders headers).map HeaderGroup.spelling).map lower := by
      rw [List.map_map]
      exact List.map_congr_left fun g hg => hj.key g hg
    have hplain : plainNames (headers ++ [h]) =
        plainNames headers ++ if isStructuredHeader h.name then [] else [h.name] := by
      rw [plainNames, List.map_append, List.filter_append]
      cases hs : isStructuredHeader h.name <;> simp [plainNames, hs]
    rw [joinHeaders, List.foldl_append, hplain]
    show (joinHeader (joinHeaders headers) h).map HeaderGroup.spelling = _
    unfold joinHeader
    by_cases hstructured : isStructuredHeader h.name = true
    · rw [if_pos hstructured, if_pos hstructured, List.append_nil, ih]
    rw [if_neg hstructured, if_neg hstructured, firstSpellings_concat, addSpelling, hkeys, ih]
    by_cases hold : lower h.name ∈ (firstSpellings (plainNames headers)).map lower
    · rw [if_pos hold, if_pos hold, List.map_map, ← ih]
      refine List.map_congr_left fun g _ => ?_
      simp only [Function.comp_apply]
      split <;> rfl
    · rw [if_neg hold, if_neg hold, List.map_append, ih]
      rfl

/-! ## Ids of header names -/

/-- The id that a header name has in the map. -/
def headerId (names : NameIdMap) (name : Bytes) : Option Nat :=
  names.lookup (names.guidIndex kPsInternetHeaders).1 (.string name)

theorem headerId_congr (names : NameIdMap) {a b : Bytes} (h : lower a = lower b) :
    headerId names a = headerId names b := by
  have hfold : foldCase a = foldCase b := h
  rw [headerId, headerId, NameIdMap.lookup, NameIdMap.lookup, hfold]

/-- Under the number of the GUID of header names. -/
theorem headerId_of_guids {names later : NameIdMap}
    (h : later.extraGuids = see names.extraGuids kPsInternetHeaders) (name : Bytes) :
    headerId later name = later.lookup
      (wGuid (see names.extraGuids kPsInternetHeaders) kPsInternetHeaders % 2 ^ 16)
      (.string name) := by
  rw [headerId, NameIdMap.guidIndex_eq, h, see_of_seen (seen_see _ _)]

/-- What asking for the id of a header name does to the ids of all. -/
theorem idForString_cases {names : NameIdMap} (hok : names.Ok) (name : Bytes) :
    let r := names.idForString kPsInternetHeaders name
    r.2.Ok ∧
      ((∃ id, headerId names name = some id ∧ r.1 = id ∧ headerId r.2 = headerId names ∧
          r.2.entries.length = names.entries.length) ∨
        headerId names name = none ∧ kMaxNames ≤ names.entries.length ∧ r.1 = 0 ∧
          headerId r.2 = headerId names ∧ r.2.entries.length = names.entries.length ∨
        headerId names name = none ∧ names.entries.length < kMaxNames ∧ r.1 ≠ 0 ∧
          r.2.entries.length = names.entries.length + 1 ∧
          ∀ other, headerId r.2 other =
            if lower name = lower other then some r.1 else headerId names other) := by
  intro r
  have hr : r = NameIdMap.idUnder
      (wGuid (see names.extraGuids kPsInternetHeaders) kPsInternetHeaders % 2 ^ 16) (.string name)
      { names with extraGuids := see names.extraGuids kPsInternetHeaders } := by
    show names.idFor kPsInternetHeaders (.string name) = _
    rw [NameIdMap.idFor, NameIdMap.guidIndex_eq]
  have hseen := hok.see kPsInternetHeaders
  have hsame (other : Bytes) : headerId names other = NameIdMap.lookup
      (wGuid (see names.extraGuids kPsInternetHeaders) kPsInternetHeaders % 2 ^ 16)
      { names with extraGuids := see names.extraGuids kPsInternetHeaders } (.string other) := by
    rw [headerId, NameIdMap.guidIndex_eq, NameIdMap.lookup_see]
  have hkept : headerId { names with extraGuids := see names.extraGuids kPsInternetHeaders } =
      headerId names := by
    funext other
    rw [@headerId_of_guids names _ rfl, hsame]
  rw [hsame name, hr]
  cases hfound : NameIdMap.lookup
      (wGuid (see names.extraGuids kPsInternetHeaders) kPsInternetHeaders % 2 ^ 16)
      { names with extraGuids := see names.extraGuids kPsInternetHeaders } (.string name) with
  | some id =>
    rw [NameIdMap.idUnder_old hfound]
    exact ⟨hseen, .inl ⟨id, rfl, rfl, hkept, rfl⟩⟩
  | none =>
    by_cases hfull : kMaxNames ≤ names.entries.length
    · rw [NameIdMap.idUnder_full hfound hfull]
      exact ⟨hseen, .inr (.inl ⟨rfl, hfull, rfl, hkept, rfl⟩)⟩
    · have hroom := Nat.not_le.1 hfull
      rw [NameIdMap.idUnder_new hfound hroom]
      refine ⟨?_, .inr (.inr ⟨rfl, hroom, ?_, ?_, fun other => ?_⟩)⟩
      · dsimp only
        exact hseen.mint hroom
      · rw [NameIdMap.nextId_eq hseen]
        have hfirst : kFirstNamedId = 0x8000 := rfl
        omega
      · obtain ⟨e, hentries, -, -⟩ := NameIdMap.mint_entries
          (wGuid (see names.extraGuids kPsInternetHeaders) kPsInternetHeaders % 2 ^ 16)
          { names with extraGuids := see names.extraGuids kPsInternetHeaders } (.string name)
        rw [hentries, List.length_append]
        rfl
      · rw [@headerId_of_guids names _ (NameIdMap.mint_guids _ _ _),
          NameIdMap.lookup_mint, hsame other]
        simp only [true_and, Name.fold, Name.string.injEq]
        rfl

theorem headerId_lt {names : NameIdMap} (hok : names.Ok) {name : Bytes} {id : Nat}
    (h : headerId names name = some id) : kFirstNamedId ≤ id ∧ id < 2 ^ 16 := by
  have hid := hok.ids _ _ _ h
  have hsmall := hok.small
  have hmax : kMaxNames = 4096 := rfl
  have hfirst : kFirstNamedId = 0x8000 := rfl
  omega

theorem headerId_inj {names : NameIdMap} (hok : names.Ok) {a b : Bytes} {id : Nat}
    (ha : headerId names a = some id) (hb : headerId names b = some id) : lower a = lower b := by
  obtain ⟨-, hfold⟩ := hok.apart _ _ _ _ _ ha hb
  exact Name.string.inj hfold

/-! ## The loop -/

/-- The value of a named property. -/
def namedValue (id : Nat) (merged : Bytes) : Nat × PcValue :=
  (makeTag id kPtUnicode, .bytes (utf8ToUtf16le merged))

theorem find_setString {id : Nat} (hid : id < 2 ^ 16) (merged : Bytes) (pc : PropertyContext)
    (other : Nat) : (pc.setString (makeTag id kPtUnicode) merged).find other =
      if other = id then some (namedValue id merged) else pc.find other := by
  have htype : tagType (makeTag id kPtUnicode) = kPtUnicode := tagType_makeTag (by decide)
  have hvalue : stringBytes (makeTag id kPtUnicode) merged = utf8ToUtf16le merged := by
    rw [stringBytes, htype]
    exact if_neg (by decide)
  rw [PropertyContext.setString, PropertyContext.find_put, tagId_makeTag hid (by decide), hvalue]
  rfl

/-- What the loop does, whether it stops early or not. -/
structure NamesSet (order : List HeaderGroup) (pc : PropertyContext) (names : NameIdMap)
    (r : PropertyContext × NameIdMap) : Prop where
  ok : r.2.Ok
  kept : ∀ name id, headerId names name = some id → headerId r.2 name = some id
  only : ∀ id, r.1.find id = pc.find id ∨ ∃ g ∈ order, headerId r.2 g.spelling = some id
  full : ∀ g ∈ order, headerId r.2 g.spelling = none → kMaxNames ≤ r.2.entries.length

theorem setNamed_cons {g : HeaderGroup} {order : List HeaderGroup} {pc : PropertyContext}
    {names : NameIdMap} (h : (names.idForString kPsInternetHeaders g.spelling).1 ≠ 0) :
    setNamed (g :: order) pc names =
      setNamed order
        (pc.setString (makeTag (names.idForString kPsInternetHeaders g.spelling).1 kPtUnicode)
          g.merged)
        (names.idForString kPsInternetHeaders g.spelling).2 := if_neg h

theorem setNamed_stop {g : HeaderGroup} {order : List HeaderGroup} {pc : PropertyContext}
    {names : NameIdMap} (h : (names.idForString kPsInternetHeaders g.spelling).1 = 0) :
    setNamed (g :: order) pc names =
      (pc, (names.idForString kPsInternetHeaders g.spelling).2) := if_pos h

/-- After an id has been found for a name, whichever way. -/
theorem NamesSet.cons {g : HeaderGroup} {order : List HeaderGroup} {pc : PropertyContext}
    {names names' : NameIdMap} {id : Nat} {r : PropertyContext × NameIdMap}
    (hid : headerId names' g.spelling = some id) (hok : names'.Ok)
    (hkept : ∀ name id, headerId names name = some id → headerId names' name = some id)
    (h : NamesSet order (pc.setString (makeTag id kPtUnicode) g.merged) names' r) :
    NamesSet (g :: order) pc names r := by
  have hlast := h.kept _ _ hid
  refine ⟨h.ok, fun name i hi => h.kept _ _ (hkept _ _ hi), fun i => ?_, fun g' hg' hnone => ?_⟩
  · rcases h.only i with hfind | ⟨g', hg', hi⟩
    · rw [find_setString (headerId_lt hok hid).2] at hfind
      by_cases heq : i = id
      · exact .inr ⟨g, List.mem_cons_self, heq ▸ hlast⟩
      · rw [if_neg heq] at hfind
        exact .inl hfind
    · exact .inr ⟨g', List.mem_cons_of_mem _ hg', hi⟩
  · rcases List.mem_cons.1 hg' with rfl | hg'
    · rw [hlast] at hnone
      cases hnone
    · exact h.full g' hg' hnone

/-- How the loop goes on after one name. -/
theorem setNamed_cases {names : NameIdMap} (hok : names.Ok) (g : HeaderGroup)
    (order : List HeaderGroup) (pc : PropertyContext) :
    (headerId names g.spelling = none ∧ kMaxNames ≤ names.entries.length ∧
      (setNamed (g :: order) pc names).1 = pc ∧
      (setNamed (g :: order) pc names).2.Ok ∧
      headerId (setNamed (g :: order) pc names).2 = headerId names ∧
      kMaxNames ≤ (setNamed (g :: order) pc names).2.entries.length) ∨
    ∃ id names', names'.Ok ∧ headerId names' g.spelling = some id ∧
      (∀ other, lower g.spelling ≠ lower other → headerId names' other = headerId names other) ∧
      (∀ name id, headerId names name = some id → headerId names' name = some id) ∧
      setNamed (g :: order) pc names =
        setNamed order (pc.setString (makeTag id kPtUnicode) g.merged) names' ∧
      ((headerId names g.spelling).isSome ∧ names'.entries.length = names.entries.length ∨
        headerId names g.spelling = none ∧ names.entries.length < kMaxNames ∧
          names'.entries.length = names.entries.length + 1) := by
  have hfirst : kFirstNamedId = 0x8000 := rfl
  obtain ⟨hok', ⟨id, hknown, hid, hsame, hlen⟩ | ⟨hnew, hfull, hid, hsame, hlen⟩ |
    ⟨hnew, hroom, hid, hlen, hall⟩⟩ := idForString_cases hok g.spelling
  · refine .inr ⟨id, _, hok', by rw [hsame, hknown], fun other _ => by rw [hsame],
      fun name i hi => by rw [hsame, hi], ?_, .inl ⟨by rw [hknown]; rfl, hlen⟩⟩
    have hne : id ≠ 0 := by
      have hlt := headerId_lt hok hknown
      omega
    rw [setNamed_cons (hid ▸ hne), hid]
  · left
    rw [setNamed_stop hid]
    exact ⟨hnew, hfull, rfl, hok', hsame, hlen ▸ hfull⟩
  · refine .inr ⟨_, _, hok', by rw [hall, if_pos rfl], fun other hne => by rw [hall, if_neg hne],
      fun name i hi => ?_, setNamed_cons hid, .inr ⟨hnew, hroom, hlen⟩⟩
    have hne : lower g.spelling ≠ lower name := by
      intro heq
      rw [headerId_congr names heq, hi] at hnew
      cases hnew
    rw [hall, if_neg hne, hi]

theorem setNamed_spec {names : NameIdMap} (hok : names.Ok) (order : List HeaderGroup)
    (pc : PropertyContext) : NamesSet order pc names (setNamed order pc names) := by
  induction order generalizing pc names with
  | nil => exact ⟨hok, fun _ _ h => h, fun _ => .inl rfl, by simp⟩
  | cons g order ih =>
    obtain ⟨-, -, hpc, hok', hsame, hfull⟩ | ⟨id, names', hok', hid, -, hkept, hrun, -⟩ :=
      setNamed_cases hok g order pc
    · exact ⟨hok', fun name i hi => by rw [hsame, hi], fun i => .inl (by rw [hpc]),
        fun _ _ _ => hfull⟩
    · rw [hrun]
      exact (ih hok' _).cons hid hok' hkept

/-- No name that has an id comes after one that finds the map full; `room` names still fit. -/
def KnownFirst (known : Bytes → Bool) : Nat → List Bytes → Prop
  | _, [] => True
  | 0, name :: order =>
    if known name then KnownFirst known 0 order else ∀ other ∈ order, known other = false
  | room + 1, name :: order =>
    if known name then KnownFirst known (room + 1) order else KnownFirst known room order

theorem KnownFirst.congr {known known' : Bytes → Bool} {order : List Bytes}
    (h : ∀ name ∈ order, known name = known' name) (room : Nat) :
    KnownFirst known room order ↔ KnownFirst known' room order := by
  induction order generalizing room with
  | nil => cases room <;> rfl
  | cons name order ih =>
    have hrest := ih fun other ho => h other (List.mem_cons_of_mem _ ho)
    have hall : (∀ other ∈ order, known other = false) ↔ ∀ other ∈ order, known' other = false :=
      forall₂_congr fun other ho => by rw [h other (List.mem_cons_of_mem _ ho)]
    cases room with
    | zero => simp only [KnownFirst, h name List.mem_cons_self, hrest, hall]
    | succ room => simp only [KnownFirst, h name List.mem_cons_self, hrest]

/-- The names that have an id already. -/
def knownIn (names : NameIdMap) (name : Bytes) : Bool := (headerId names name).isSome

/-- What is left to check once a name has its id. -/
theorem knownFirst_rest {names names' : NameIdMap} {g : HeaderGroup} {order : List HeaderGroup}
    (hothers : ∀ g' ∈ order, headerId names' g'.spelling = headerId names g'.spelling)
    (hcase : (headerId names g.spelling).isSome ∧ names'.entries.length = names.entries.length ∨
      headerId names g.spelling = none ∧ names.entries.length < kMaxNames ∧
        names'.entries.length = names.entries.length + 1) :
    KnownFirst (knownIn names) (kMaxNames - names.entries.length)
        ((g :: order).map HeaderGroup.spelling) ↔
      KnownFirst (knownIn names') (kMaxNames - names'.entries.length)
        (order.map HeaderGroup.spelling) := by
  have hsame : ∀ name ∈ order.map HeaderGroup.spelling, knownIn names' name = knownIn names name := by
    intro name hname
    obtain ⟨g', hg', rfl⟩ := List.mem_map.1 hname
    rw [knownIn, knownIn, hothers g' hg']
  have hcongr (room : Nat) := KnownFirst.congr hsame room
  rw [hcongr, List.map_cons]
  obtain ⟨hknown, hlen⟩ | ⟨hnew, hroom, hlen⟩ := hcase
  · have hknown' : knownIn names g.spelling = true := hknown
    rw [hlen]
    cases hroom : kMaxNames - names.entries.length with
    | zero => rw [KnownFirst, if_pos hknown']
    | succ room => rw [KnownFirst, if_pos hknown']
  · have hunknown : ¬ knownIn names g.spelling = true := by rw [knownIn, hnew]; decide
    have hsucc : kMaxNames - names.entries.length = kMaxNames - names'.entries.length + 1 := by
      omega
    rw [hsucc, KnownFirst, if_neg hunknown]

theorem knownFirst_stop {names : NameIdMap} {g : HeaderGroup} {order : List HeaderGroup}
    (hnew : headerId names g.spelling = none) (hfull : kMaxNames ≤ names.entries.length) :
    KnownFirst (knownIn names) (kMaxNames - names.entries.length)
        ((g :: order).map HeaderGroup.spelling) ↔
      ∀ g' ∈ order, headerId names g'.spelling = none := by
  have hunknown : ¬ knownIn names g.spelling = true := by rw [knownIn, hnew]; decide
  rw [Nat.sub_eq_zero_of_le hfull, List.map_cons, KnownFirst, if_neg hunknown]
  simp only [List.forall_mem_map, knownIn, Option.isSome_eq_false_iff, Option.isNone_iff_eq_none]

/-- A later name has another id. -/
theorem setNamed_head {names : NameIdMap} (hok : names.Ok) {g : HeaderGroup}
    {order : List HeaderGroup} {pc : PropertyContext} {id : Nat}
    (hid : headerId names g.spelling = some id)
    (hapart : ∀ g' ∈ order, lower g.spelling ≠ lower g'.spelling) {g' : HeaderGroup}
    (hg' : g' ∈ order) {id' : Nat}
    (hid' : headerId (setNamed order pc names).2 g'.spelling = some id') : id' ≠ id := by
  rintro rfl
  have hrest := setNamed_spec hok order pc
  exact hapart g' hg' (headerId_inj hrest.ok (hrest.kept _ _ hid) hid')

theorem apart_of_nodup {g : HeaderGroup} {order : List HeaderGroup}
    (hnodup : ((g :: order).map fun g => lower g.spelling).Nodup) :
    ∀ g' ∈ order, lower g.spelling ≠ lower g'.spelling := by
  intro g' hg' heq
  rw [List.map_cons, List.nodup_cons] at hnodup
  exact hnodup.1 (heq ▸ List.mem_map_of_mem hg')

/-- Each name with an id has its property, when those with an id are asked for in time. The
induction goes along the loop; the ids of the names still to come do not change. -/
theorem setNamed_complete {names : NameIdMap} (hok : names.Ok) {order : List HeaderGroup}
    (hnodup : (order.map fun g => lower g.spelling).Nodup) (pc : PropertyContext)
    (h : KnownFirst (knownIn names) (kMaxNames - names.entries.length)
      (order.map HeaderGroup.spelling)) :
    ∀ g ∈ order, ∀ id, headerId (setNamed order pc names).2 g.spelling = some id →
      (setNamed order pc names).1.find id = some (namedValue id g.merged) := by
  induction order generalizing pc names with
  | nil => simp
  | cons g order ih =>
    have hapart := apart_of_nodup hnodup
    obtain ⟨hnew, hfull, -, -, hsame, -⟩ | ⟨id, names', hok', hid, hothers, -, hrun, hcase⟩ :=
      setNamed_cases hok g order pc
    · -- the loop stops; no name that follows has an id
      have hnone := (knownFirst_stop hnew hfull).1 h
      intro g' hg' id hid
      rw [hsame] at hid
      rcases List.mem_cons.1 hg' with rfl | hg'
      · rw [hnew] at hid
        cases hid
      · rw [hnone g' hg'] at hid
        cases hid
    · have hrest := (knownFirst_rest (fun g' hg' => hothers _ (hapart g' hg')) hcase).1 h
      have hspec := setNamed_spec hok' order (pc.setString (makeTag id kPtUnicode) g.merged)
      rw [hrun]
      intro g' hg' id' hid'
      rcases List.mem_cons.1 hg' with rfl | hg'
      · obtain rfl := Option.some.inj ((hspec.kept _ _ hid).symm.trans hid')
        rcases hspec.only id with hfind | ⟨g'', hg'', hid''⟩
        · rw [hfind, find_setString (headerId_lt hok' hid).2, if_pos rfl]
        · exact absurd rfl (setNamed_head hok' hid hapart hg'' hid'')
      · exact ih hok' (List.nodup_cons.1 hnodup).2 _ hrest g' hg' id' hid'

/-- Otherwise some name with an id is left out. -/
theorem setNamed_incomplete {names : NameIdMap} (hok : names.Ok) {order : List HeaderGroup}
    (hnodup : (order.map fun g => lower g.spelling).Nodup) (pc : PropertyContext)
    (h : ¬ KnownFirst (knownIn names) (kMaxNames - names.entries.length)
      (order.map HeaderGroup.spelling)) :
    ∃ g ∈ order, ∃ id, headerId (setNamed order pc names).2 g.spelling = some id ∧
      (setNamed order pc names).1.find id = pc.find id := by
  induction order generalizing pc names with
  | nil =>
    refine absurd ?_ h
    cases kMaxNames - names.entries.length <;> exact trivial
  | cons g order ih =>
    have hapart := apart_of_nodup hnodup
    obtain ⟨hnew, hfull, hpc, -, hsame, -⟩ | ⟨id, names', hok', hid, hothers, -, hrun, hcase⟩ :=
      setNamed_cases hok g order pc
    · rw [knownFirst_stop hnew hfull] at h
      simp only [not_forall] at h
      obtain ⟨g', hg', hsome⟩ := h
      obtain ⟨id, hid⟩ := Option.ne_none_iff_exists'.1 hsome
      exact ⟨g', List.mem_cons_of_mem _ hg', id, hsame ▸ hid, by rw [hpc]⟩
    · rw [knownFirst_rest (fun g' hg' => hothers _ (hapart g' hg')) hcase] at h
      obtain ⟨g', hg', id', hid', hfind⟩ := ih hok' (List.nodup_cons.1 hnodup).2
        (pc.setString (makeTag id kPtUnicode) g.merged) h
      have hne := setNamed_head hok' hid hapart hg' hid'
      rw [find_setString (headerId_lt hok' hid).2, if_neg hne] at hfind
      rw [hrun]
      exact ⟨g', List.mem_cons_of_mem _ hg', id', hid', hfind⟩

/-! ## Complete -/

/-- Every header whose name has an id has its property, and no structured one gets any. -/
structure HeadersNamed (headers : List RawHeader) (names names' : NameIdMap)
    (pc pc' : PropertyContext) : Prop where
  kept : ∀ name id, headerId names name = some id → headerId names' name = some id
  named : ∀ h ∈ headers, isStructuredHeader h.name = false → ∀ id, headerId names' h.name = some id →
    pc'.find id = some (namedValue id ([(10 : Byte)].intercalate (valuesOf headers h.name)))
  lacking : ∀ h ∈ headers, isStructuredHeader h.name = false → headerId names' h.name = none →
    kMaxNames ≤ names'.entries.length
  structured : ∀ h ∈ headers, isStructuredHeader h.name = true → ∀ id,
    headerId names' h.name = some id → pc'.find id = pc.find id

theorem Joined.group {headers : List RawHeader} {order : List HeaderGroup} (hj : Joined headers order)
    {h : RawHeader} (hmem : h ∈ headers) (hfree : isStructuredHeader h.name = false) :
    ∃ g ∈ order, lower g.spelling = lower h.name := by
  obtain ⟨g, hg, hkey⟩ := List.mem_map.1 (hj.covers h hmem hfree)
  exact ⟨g, hg, (hj.key g hg).symm.trans hkey⟩

theorem valuesOf_congr (headers : List RawHeader) {a b : Bytes} (h : lower a = lower b) :
    valuesOf headers a = valuesOf headers b := by
  rw [valuesOf, valuesOf, h]

theorem Joined.nodup_spelling {headers : List RawHeader} {order : List HeaderGroup}
    (hj : Joined headers order) : (order.map fun g => lower g.spelling).Nodup := by
  rw [← List.map_congr_left fun g hg => hj.key g hg]
  exact hj.nodup

theorem find_setBlob {id : Nat} (hid : kFirstNamedId ≤ id) (pc : PropertyContext) (msg : Message) :
    (setBlob pc msg).find id = pc.find id := by
  have hne : id ≠ tagId PR_TRANSPORT_MESSAGE_HEADERS := by
    have htag : tagId PR_TRANSPORT_MESSAGE_HEADERS = 0x007D := by decide
    have hfirst : kFirstNamedId = 0x8000 := rfl
    omega
  unfold setBlob
  split
  · rfl
  · rw [PropertyContext.setString, PropertyContext.find_put, if_neg hne]

theorem headersNamed_iff {names : NameIdMap} (hok : names.Ok) (msg : Message) :
    (∀ pc, HeadersNamed msg.headers names (applyHeaderProperties pc msg names).2 pc
      (applyHeaderProperties pc msg names).1) ↔
    KnownFirst (knownIn names) (kMaxNames - names.entries.length)
      (firstSpellings (plainNames msg.headers)) := by
  have hj := joined msg.headers
  rw [← spelling_joinHeaders]
  constructor
  · intro h
    by_contra hnot
    obtain ⟨g, hg, id, hid, hfind⟩ := setNamed_incomplete hok hj.nodup_spelling (setBlob {} msg) hnot
    obtain ⟨h', hmem, hname⟩ := hj.spelled g hg
    have hfree : isStructuredHeader h'.name = false := hname ▸ hj.free g hg
    have hlast := (setNamed_spec hok (joinHeaders msg.headers) (setBlob {} msg)).ok
    have hvalue := (h {}).named h' hmem hfree id (hname ▸ hid)
    rw [applyHeaderProperties, hfind, find_setBlob (headerId_lt hlast hid).1] at hvalue
    cases hvalue
  · intro h pc
    have hspec := setNamed_spec hok (joinHeaders msg.headers) (setBlob pc msg)
    refine ⟨hspec.kept, fun h' hmem hfree id hid => ?_, fun h' hmem hfree hnone => ?_,
      fun h' hmem hstructured id hid => ?_⟩
    · obtain ⟨g, hg, hkey⟩ := hj.group hmem hfree
      rw [← headerId_congr _ hkey] at hid
      rw [← valuesOf_congr _ hkey, ← hj.merged g hg]
      exact setNamed_complete hok hj.nodup_spelling _ h g hg id hid
    · obtain ⟨g, hg, hkey⟩ := hj.group hmem hfree
      rw [← headerId_congr _ hkey] at hnone
      exact hspec.full g hg hnone
    · rw [← find_setBlob (headerId_lt hspec.ok hid).1 pc msg]
      refine (hspec.only id).resolve_right ?_
      rintro ⟨g, hg, hid'⟩
      have hsame := isStructuredHeader_congr (headerId_inj hspec.ok hid' hid)
      rw [hj.free g hg, hstructured] at hsame
      cases hsame

/-- Every name that has an id has its property in exactly the messages in which no name that is
known comes after a new one that finds the map full. -/
theorem header_properties_complete_iff (calls : List NameCall) (msg : Message) :
    (∀ pc, HeadersNamed msg.headers (runCalls calls {}).2
      (applyHeaderProperties pc msg (runCalls calls {}).2).2 pc
      (applyHeaderProperties pc msg (runCalls calls {}).2).1) ↔
    KnownFirst (knownIn (runCalls calls {}).2) (kMaxNames - (runCalls calls {}).2.entries.length)
      (firstSpellings (plainNames msg.headers)) :=
  headersNamed_iff (NameIdMap.Ok.start.runCalls calls) msg

/-! ## A full map -/

/-- A header name, and numbered names until the map is full. -/
def fillMap (k : Nat) : List NameCall :=
  .idForString kPsInternetHeaders (str "X-Known") ::
    (List.range k).map fun i => .idForNumeric kPsMapi i.toUInt32

def filledNames (k : Nat) : List Named :=
  ⟨kPsInternetHeaders, .string (str "X-Known")⟩ ::
    (List.range k).map fun i => ⟨kPsMapi, .number i.toUInt32⟩

theorem numbered_fresh {k : Nat} (hk : k < 2 ^ 32) :
    (⟨kPsMapi, .number k.toUInt32⟩ : Named).key ∉ (filledNames k).map Named.key := by
  intro h
  rcases List.mem_cons.1 h with h | h
  · exact absurd (congrArg Prod.snd h) (by simp [Named.key, Name.fold])
  · rw [List.map_map] at h
    obtain ⟨i, hi, heq⟩ := List.mem_map.1 h
    have hlt := List.mem_range.1 hi
    have hnum : (i.toUInt32).toNat = (k.toUInt32).toNat :=
      congrArg UInt32.toNat (Name.number.inj (Prod.mk.inj heq).2)
    rw [UInt32.toNat_ofNat', UInt32.toNat_ofNat'] at hnum
    omega

theorem after_fillMap {k : Nat} (hk : k < kMaxNames) :
    NameTable.after (fillMap k) {} = ⟨[kPsInternetHeaders], filledNames k⟩ := by
  have hmax : kMaxNames = 4096 := rfl
  induction k with
  | zero => decide
  | succ k ih =>
    have hcalls : fillMap (k + 1) = fillMap k ++ [.idForNumeric kPsMapi k.toUInt32] := by
      rw [fillMap, fillMap, List.range_succ, List.map_append]
      rfl
    have hlen : (filledNames k).length = k + 1 := by simp [filledNames]
    have hset : ¬ NameTable.Settled ⟨[kPsInternetHeaders], filledNames k⟩
        (⟨kPsMapi, .number k.toUInt32⟩ : Named).key := by
      rintro (h | h)
      · exact numbered_fresh (by omega) h
      · exact absurd (hlen ▸ h) (by omega)
    rw [hcalls, NameTable.after_append, ih (by omega), NameTable.after, List.foldl_cons,
      List.foldl_nil, NameTable.step_named (n := ⟨kPsMapi, .number k.toUInt32⟩) rfl]
    have hseen : see [kPsInternetHeaders] kPsMapi = [kPsInternetHeaders] := by decide
    simp only [NameCall.guid, hseen]
    rw [NameTable.enter_unsettled hset, filledNames, filledNames, List.range_succ, List.map_append]
    rfl

theorem represents_fillMap :
    Represents ⟨[kPsInternetHeaders], filledNames 4095⟩ (runCalls (fillMap 4095) {}).2 := by
  have htable := after_fillMap (k := 4095) (by decide)
  have hsafe : SafeFrom {} (fillMap 4095) := safe_of_few .start (by rw [htable]; decide)
  rw [← htable]
  exact (runCalls_represents .start .start hsafe).1

/-- With the map full, the known name behind the new one is left out. -/
theorem known_header_left_out :
    let names := (runCalls (fillMap 4095) {}).2
    let msg : Message := { headers := [⟨str "X-New", str "1"⟩, ⟨str "X-Known", str "2"⟩] }
    ¬ ∀ pc, HeadersNamed msg.headers names (applyHeaderProperties pc msg names).2 pc
      (applyHeaderProperties pc msg names).1 := by
  intro names msg h
  have hrep : Represents ⟨[kPsInternetHeaders], filledNames 4095⟩ names := represents_fillMap
  have hok : names.Ok := NameIdMap.Ok.start.runCalls (fillMap 4095)
  clear_value names
  have hknown := (headersNamed_iff hok msg).1 h
  have hguid : wGuid [kPsInternetHeaders] kPsInternetHeaders = 3 := by decide
  have hnumber : (names.guidIndex kPsInternetHeaders).1 = 3 := by
    rw [NameIdMap.guidIndex_eq, hrep.guids]
    exact (by decide : wGuid (see [kPsInternetHeaders] kPsInternetHeaders) kPsInternetHeaders
      % 2 ^ 16 = 3)
  have hfull : kMaxNames - names.entries.length = 0 := by
    rw [hrep.count]
    simp [filledNames, kMaxNames]
  have hnew : knownIn names (str "X-New") = false := by
    rw [knownIn, headerId, hnumber, Option.isSome_eq_false_iff, Option.isNone_iff_eq_none,
      Option.eq_none_iff_forall_ne_some]
    intro id hid
    obtain ⟨i, n, hn, -, hname, -⟩ := (hrep.lookup _ _ _).1 hid
    rcases List.mem_cons.1 (List.mem_of_getElem? hn) with rfl | hmem
    · exact absurd hname (by decide)
    · obtain ⟨k, -, rfl⟩ := List.mem_map.1 hmem
      cases hname
  have hold : headerId names (str "X-Known") = some kFirstNamedId := by
    have hfirst (k : Nat) : (filledNames k)[0]? =
        some ⟨kPsInternetHeaders, .string (str "X-Known")⟩ := rfl
    rw [headerId, hnumber]
    exact (hrep.lookup _ _ _).2 ⟨0, _, hfirst 4095, hguid, rfl, rfl⟩
  have horder : firstSpellings (plainNames msg.headers) = [str "X-New", str "X-Known"] := by decide
  rw [hfull, horder, KnownFirst, if_neg (by rw [hnew]; decide)] at hknown
  have hnone := hknown (str "X-Known") List.mem_cons_self
  have hsome : knownIn names (str "X-Known") = true := congrArg Option.isSome hold
  rw [hsome] at hnone
  cases hnone

end Pst
end Imap2Pst
