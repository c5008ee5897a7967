import Imap2Pst.Mime.Headers
import Imap2Pst.Pst.HeaderNames
import Imap2Pst.Pst.Utf16

/-!
# Pst.StoredNames

The names that the messages of a store leave in its name-to-id map, as they are written.

* `storeNames` — the map after `init` and any messages, with the messages embedded in them.
* `storeNames_represents` — it holds the first spellings of the header names, as many as fit.
* `one_entry_per_name_iff` — when no two entries are stored under one name.
-/

namespace Imap2Pst

open CxxStd

/-- A message and the messages embedded in it, in the order in which they are built. -/
def Message.built (m : Message) : List Message :=
  m :: m.attachments.attach.flatMap fun ⟨a, _⟩ =>
    match _ : a.embedded with
    | none => []
    | some inner => inner.built
termination_by sizeOf m
decreasing_by
  have hattached := List.sizeOf_lt_of_mem ‹a ∈ m.attachments›
  cases a
  cases m
  simp only [AttachmentOf.mk.sizeOf_spec, Message.mk.sizeOf_spec] at *
  subst_vars
  simp_all
  omega

namespace Pst

/-! ## The code -/

def keywordsName : Bytes := str "Keywords"

/-- The names that `init` puts into the map. -/
def initNames : NameIdMap :=
  (({} : NameIdMap).idForString kPsPublicStrings keywordsName).2.ensureGuid kPsInternetHeaders

/-- What `buildMessage` does to the map for one message. -/
def buildNames (m : Message) (names : NameIdMap) : NameIdMap :=
  let names :=
    if m.keywords = [] then names else (names.idForString kPsPublicStrings keywordsName).2
  (applyHeaderProperties {} m names).2

/-- The map after these messages. -/
def storeNames (msgs : List Message) : NameIdMap :=
  (msgs.flatMap Message.built).foldl (fun names m => buildNames m names) initNames

/-! ## The names in the map -/

def keywordsNamed : Named := ⟨kPsPublicStrings, .string keywordsName⟩

def headerNamed (name : Bytes) : Named := ⟨kPsInternetHeaders, .string name⟩

/-- The table with these spellings of header names, as many as fit. -/
def headerTable (seen : List Bytes) : NameTable :=
  ⟨[kPsInternetHeaders], keywordsNamed :: (seen.take (kMaxNames - 1)).map headerNamed⟩

/-- The names of all headers that have no property of their own, in order. -/
def headerNames (msgs : List Message) : List Bytes :=
  (msgs.flatMap Message.built).flatMap fun m => plainNames m.headers

/-- The spellings that get an entry. -/
def storedSpellings (msgs : List Message) : List Bytes :=
  (firstSpellings (headerNames msgs)).take (kMaxNames - 1)

theorem headerTable_keys (seen : List Bytes) :
    (headerTable seen).keys = keywordsNamed.key ::
      ((seen.take (kMaxNames - 1)).map lower).map fun key => (kPsInternetHeaders, .string key) := by
  rw [headerTable, NameTable.keys, List.map_cons, List.map_map, List.map_map]
  rfl

theorem see_internetHeaders : see [kPsInternetHeaders] kPsInternetHeaders = [kPsInternetHeaders] := by
  decide

theorem see_publicStrings : see [kPsInternetHeaders] kPsPublicStrings = [kPsInternetHeaders] := by
  decide

theorem headerTable_full {seen : List Bytes} (h : kMaxNames - 1 ≤ seen.length) (name : Bytes) :
    headerTable (addSpelling seen name) = headerTable seen := by
  unfold addSpelling
  split
  · rfl
  · rw [headerTable, headerTable, List.take_append_of_le_length h]

/-- A header name is entered with the spelling it is first seen in. -/
theorem headerTable_step (seen : List Bytes) (name : Bytes) :
    (headerTable seen).step (.idForString kPsInternetHeaders name) =
      headerTable (addSpelling seen name) := by
  have hmax : kMaxNames = 4096 := rfl
  rw [NameTable.step_named (n := headerNamed name) rfl]
  have hguids : ({ headerTable seen with
      guids := see (headerTable seen).guids
        (NameCall.idForString kPsInternetHeaders name).guid } : NameTable) = headerTable seen := by
    show (⟨see [kPsInternetHeaders] kPsInternetHeaders, _⟩ : NameTable) = _
    rw [see_internetHeaders]
    rfl
  rw [hguids]
  have hlen : (headerTable seen).names.length = min (kMaxNames - 1) seen.length + 1 := by
    simp [headerTable]
  have hkey : (headerNamed name).key ∈ (headerTable seen).keys ↔
      lower name ∈ (seen.take (kMaxNames - 1)).map lower := by
    rw [headerTable_keys, List.mem_cons, or_iff_right (by
      intro h
      exact absurd (congrArg Prod.fst h) (by simp [headerNamed, keywordsNamed, Named.key,
        kPsInternetHeaders, kPsPublicStrings]))]
    constructor
    · intro h
      obtain ⟨key, hmem, heq⟩ := List.mem_map.1 h
      have hsame : lower name = key := (Name.string.inj (Prod.mk.inj heq).2).symm
      exact hsame ▸ hmem
    · exact fun h => List.mem_map.2 ⟨_, h, rfl⟩
  by_cases hfull : kMaxNames - 1 ≤ seen.length
  · rw [headerTable_full hfull, NameTable.enter_settled (.inr (by omega))]
  have htake : seen.take (kMaxNames - 1) = seen := List.take_of_length_le (by omega)
  rw [htake] at hkey
  unfold addSpelling
  by_cases hold : lower name ∈ seen.map lower
  · rw [if_pos hold, NameTable.enter_settled (.inl (hkey.2 hold))]
  · have hnew : ¬ (headerTable seen).Settled (headerNamed name).key := by
      rintro (h | h)
      · exact hold (hkey.1 h)
      · omega
    rw [if_neg hold, NameTable.enter_unsettled hnew]
    have htake' : (seen ++ [name]).take (kMaxNames - 1) = seen ++ [name] :=
      List.take_of_length_le (by rw [List.length_append, List.length_singleton]; omega)
    simp only [headerTable, htake, htake', List.map_append, List.map_cons, List.map_nil,
      List.cons_append]

theorem headerTable_keywords (seen : List Bytes) :
    (headerTable seen).step (.idForString kPsPublicStrings keywordsName) = headerTable seen := by
  rw [NameTable.step_named (n := keywordsNamed) rfl]
  have hguids : ({ headerTable seen with
      guids := see (headerTable seen).guids
        (NameCall.idForString kPsPublicStrings keywordsName).guid } : NameTable) =
      headerTable seen := by
    show (⟨see [kPsInternetHeaders] kPsPublicStrings, _⟩ : NameTable) = _
    rw [see_publicStrings]
    rfl
  rw [hguids]
  exact NameTable.enter_settled (.inl List.mem_cons_self)

theorem lower_mem_addSpelling {seen : List Bytes} {name key : Bytes} :
    key ∈ (addSpelling seen name).map lower ↔ key ∈ seen.map lower ∨ key = lower name := by
  unfold addSpelling
  split
  · rename_i hold
    exact ⟨.inl, fun h => h.elim id fun heq => heq ▸ hold⟩
  · rw [List.map_append, List.mem_append, List.map_singleton, List.mem_singleton]

theorem lower_mem_foldl {seen names : List Bytes} {key : Bytes} :
    key ∈ (names.foldl addSpelling seen).map lower ↔
      key ∈ seen.map lower ∨ key ∈ names.map lower := by
  induction names generalizing seen with
  | nil => simp
  | cons name names ih =>
    rw [List.foldl_cons, ih, lower_mem_addSpelling, List.map_cons, List.mem_cons, or_assoc]

/-- A name that comes again adds nothing. -/
theorem foldl_firstSpellings (names seen : List Bytes) :
    (firstSpellings names).foldl addSpelling seen = names.foldl addSpelling seen := by
  induction names using List.reverseRecOn with
  | nil => rfl
  | append_singleton names name ih =>
    rw [firstSpellings_concat, List.foldl_append, ← ih, addSpelling]
    split
    · rename_i hold
      have hin : lower name ∈ ((firstSpellings names).foldl addSpelling seen).map lower :=
        lower_mem_foldl.2 (.inr hold)
      exact (if_pos hin).symm
    · rw [List.foldl_append]

theorem headerTable_foldl_full {seen : List Bytes} (h : kMaxNames - 1 ≤ seen.length)
    (names : List Bytes) : headerTable (names.foldl addSpelling seen) = headerTable seen := by
  induction names generalizing seen with
  | nil => rfl
  | cons name names ih =>
    have hgrows : seen.length ≤ (addSpelling seen name).length := by
      unfold addSpelling
      split <;> simp
    rw [List.foldl_cons, ih (h.trans hgrows), headerTable_full h]

/-- The map holds these spellings. -/
structure HoldsNames (seen : List Bytes) (names : NameIdMap) : Prop where
  table : (headerTable seen).Ok
  map : names.Ok
  represents : Represents (headerTable seen) names

theorem HoldsNames.call {seen seen' : List Bytes} {names : NameIdMap} (h : HoldsNames seen names)
    {c : NameCall} (hstep : (headerTable seen).step c = headerTable seen') :
    HoldsNames seen' (c.run names).2 := by
  have hsafe : SafeFrom (headerTable seen) [c] := by
    refine safe_of_few h.table ?_
    show ((headerTable seen).step c).guids.length + 2 < 2 ^ 15
    rw [hstep]
    exact (by decide : ([kPsInternetHeaders] : List Guid).length + 2 < 2 ^ 15)
  have htable := h.table.step c
  have hrep := (h.represents.step h.table hsafe.1).1
  rw [hstep] at htable hrep
  exact ⟨htable, h.map.run c, hrep⟩

/-- The calls of `init`. -/
def initCalls : List NameCall :=
  [.idForString kPsPublicStrings keywordsName, .ensureGuid kPsInternetHeaders]

theorem HoldsNames.start : HoldsNames [] initNames := by
  have htable : NameTable.after initCalls {} = headerTable [] := by decide
  have hsafe : SafeFrom {} initCalls := safe_of_few .start (by rw [htable]; decide)
  have hrep := (runCalls_represents .start .start hsafe).1
  have hok := NameTable.Ok.start.after initCalls
  rw [htable] at hrep hok
  exact ⟨hok, NameIdMap.Ok.start.runCalls initCalls, hrep⟩

theorem HoldsNames.setNamed {seen : List Bytes} {names : NameIdMap} (h : HoldsNames seen names)
    (order : List HeaderGroup) (pc : PropertyContext) :
    HoldsNames ((order.map HeaderGroup.spelling).foldl addSpelling seen)
      (setNamed order pc names).2 := by
  induction order generalizing seen names pc with
  | nil => exact h
  | cons g order ih =>
    have hnext : HoldsNames (addSpelling seen g.spelling)
        (names.idForString kPsInternetHeaders g.spelling).2 :=
      h.call (c := .idForString kPsInternetHeaders g.spelling) (headerTable_step seen g.spelling)
    by_cases hzero : (names.idForString kPsInternetHeaders g.spelling).1 = 0
    · have hfull : kMaxNames - 1 ≤ seen.length := by
        have hmax : kMaxNames = 4096 := rfl
        obtain ⟨-, ⟨id, hknown, hid, -⟩ | ⟨-, hfull, -⟩ | ⟨-, -, hne, -⟩⟩ :=
          idForString_cases h.map g.spelling
        · have hfirst : kFirstNamedId = 0x8000 := rfl
          have hlt := headerId_lt h.map hknown
          omega
        · have hcount : (headerTable seen).names.length = min (kMaxNames - 1) seen.length + 1 := by
            simp [headerTable]
          rw [h.represents.count] at hfull
          omega
        · exact absurd hzero hne
      have hsame := headerTable_foldl_full hfull ((g :: order).map HeaderGroup.spelling)
      have hsame' := headerTable_full hfull g.spelling
      rw [setNamed_stop hzero]
      refine ⟨?_, hnext.map, ?_⟩
      · rw [hsame, ← hsame']
        exact hnext.table
      · rw [hsame, ← hsame']
        exact hnext.represents
    · rw [setNamed_cons hzero]
      exact ih hnext _

theorem HoldsNames.buildNames {seen : List Bytes} {names : NameIdMap} (h : HoldsNames seen names)
    (m : Message) : HoldsNames ((plainNames m.headers).foldl addSpelling seen) (buildNames m names) := by
  have hkeywords : HoldsNames seen
      (if m.keywords = [] then names
        else (names.idForString kPsPublicStrings keywordsName).2) := by
    split
    · exact h
    · exact h.call (c := .idForString kPsPublicStrings keywordsName) (headerTable_keywords seen)
  have hheaders := hkeywords.setNamed (joinHeaders m.headers) (setBlob {} m)
  rw [spelling_joinHeaders, foldl_firstSpellings] at hheaders
  exact hheaders

/-- The map of a store holds the first spellings of its header names. -/
theorem storeNames_holds (msgs : List Message) :
    HoldsNames (firstSpellings (headerNames msgs)) (storeNames msgs) := by
  have hfold (built : List Message) (seen : List Bytes) (names : NameIdMap)
      (h : HoldsNames seen names) :
      HoldsNames ((built.flatMap fun m => plainNames m.headers).foldl addSpelling seen)
        (built.foldl (fun names m => Pst.buildNames m names) names) := by
    induction built generalizing seen names with
    | nil => exact h
    | cons m built ih =>
      rw [List.flatMap_cons, List.foldl_append, List.foldl_cons]
      exact ih _ _ (h.buildNames m)
  exact hfold _ [] initNames .start

/-! ## On disk -/

/-- The string entries, each with the GUID and the name that a reader finds for it. -/
def stringEntries (pc : PropertyContext) : List (Option Bytes × Option Bytes) :=
  ((readRecords (streamOf pc 0x0003)).filter NameRecord.isString).map fun r =>
    (readGuid (streamOf pc 0x0002) r.wGuid, readString (streamOf pc 0x0004) r.numeric)

/-- One GUID, and one name up to the case of ASCII letters. -/
def SameEntry (a b : Option Bytes × Option Bytes) : Prop :=
  a.1 = b.1 ∧ a.2.map foldUtf16 = b.2.map foldUtf16

instance (a b : Option Bytes × Option Bytes) : Decidable (SameEntry a b) := by
  unfold SameEntry
  infer_instance

/-- What is to be found for a name. -/
def entryFor (guid : Guid) (name : Bytes) : Option Bytes × Option Bytes :=
  (some guid.bytes, some (utf8ToUtf16le name))

/-- The entries that are to be found. -/
def expectedEntries (spellings : List Bytes) : List (Option Bytes × Option Bytes) :=
  entryFor kPsPublicStrings keywordsName :: spellings.map (entryFor kPsInternetHeaders)

/-- What is to be found for an entry of the table. -/
def expectedEntry (n : Named) : Option Bytes × Option Bytes :=
  match n.name with
  | .string name => entryFor n.guid name
  | .number _ => (none, none)

theorem name_of_headerTable {seen : List Bytes} {n : Named} (hn : n ∈ (headerTable seen).names) :
    ∃ name, n.name = .string name := by
  rcases List.mem_cons.1 hn with rfl | hn
  · exact ⟨_, rfl⟩
  · obtain ⟨name, -, rfl⟩ := List.mem_map.1 hn
    exact ⟨name, rfl⟩

/-- What a reader finds for the entry of a name. -/
theorem HoldsNames.entry {seen : List Bytes} {names : NameIdMap} (h : HoldsNames seen names)
    (hshort : names.stringStream.length < 2 ^ 32) {i : Nat} {guid : Guid} {name : Bytes}
    (hn : (headerTable seen).names[i]? = some ⟨guid, .string name⟩) :
    (readGuid names.guidStream (recordOf (entryOf (headerTable seen) i ⟨guid, .string name⟩)).wGuid,
      readString names.stringStream
        (recordOf (entryOf (headerTable seen) i ⟨guid, .string name⟩)).numeric) =
      entryFor guid name := by
  have hmem := List.mem_of_getElem? hn
  have hread : Readable (headerTable seen) := readable_of_short (h.represents.strings ▸ hshort)
  have hguid : (recordOf (entryOf (headerTable seen) i ⟨guid, .string name⟩)).wGuid =
      wGuid (headerTable seen).guids guid := Nat.mod_eq_of_lt (h.represents.fits _ hmem)
  have hoffset : (recordOf (entryOf (headerTable seen) i ⟨guid, .string name⟩)).numeric =
      offsetOf (headerTable seen).names i % 2 ^ 32 := Nat.mod_mod _ _
  rw [hguid, hoffset, entryFor, NameIdMap.guidStream, h.represents.guids,
    (readGuid_iff h.table.guids (h.table.seen _ hmem)).2 rfl, h.represents.strings,
    readString_iff.2 (hread i _ name hn rfl)]

/-- A map whose strings are not too long is written as it is meant. -/
theorem HoldsNames.stringEntries {seen : List Bytes} {names : NameIdMap}
    (h : HoldsNames seen names) (hshort : names.stringStream.length < 2 ^ 32) :
    stringEntries names.buildPropertyContext = expectedEntries (seen.take (kMaxNames - 1)) := by
  have hnone (i : Nat) (hn : (headerTable seen).names[i]? = none) : names.entries[i]? = none := by
    rw [List.getElem?_eq_none_iff] at hn ⊢
    rw [h.represents.count]
    exact hn
  have hall : ∀ r ∈ names.entries.map recordOf, r.isString = true := by
    intro r hr
    obtain ⟨e, he, rfl⟩ := List.mem_map.1 hr
    obtain ⟨i, hi⟩ := List.mem_iff_getElem?.1 he
    cases hn : (headerTable seen).names[i]? with
    | none =>
      rw [hnone i hn] at hi
      cases hi
    | some n =>
      obtain ⟨guid, nm⟩ := n
      obtain ⟨name, hname⟩ := name_of_headerTable (List.mem_of_getElem? hn)
      cases hname
      obtain rfl := Option.some.inj ((h.represents.entries i _ hn).symm.trans hi)
      rfl
  have hexpected : expectedEntries (seen.take (kMaxNames - 1)) =
      (headerTable seen).names.map expectedEntry := by
    rw [expectedEntries, headerTable, List.map_cons, List.map_map]
    rfl
  rw [Pst.stringEntries, NameIdMap.readRecords_entries, List.filter_eq_self.2 hall, List.map_map,
    NameIdMap.streamOf_guids, NameIdMap.streamOf_strings, hexpected]
  refine List.ext_getElem? fun i => ?_
  rw [List.getElem?_map, List.getElem?_map]
  cases hn : (headerTable seen).names[i]? with
  | none => rw [hnone i hn]; rfl
  | some n =>
    obtain ⟨guid, nm⟩ := n
    obtain ⟨name, hname⟩ := name_of_headerTable (List.mem_of_getElem? hn)
    cases hname
    rw [h.represents.entries i _ hn]
    exact congrArg some (h.entry hshort hn)

/-! ## One entry per name -/

/-- Names that are the same text, up to the case of ASCII letters. -/
def Alike (a b : Bytes) : Prop := (chars a).map foldChar = (chars b).map foldChar

instance (a b : Bytes) : Decidable (Alike a b) := by
  unfold Alike
  infer_instance

/-- No two entries are stored under one name. -/
def OneEntryPerName (pc : PropertyContext) : Prop :=
  (stringEntries pc).Pairwise fun a b => ¬ SameEntry a b

theorem sameEntry_iff {g g' : Guid} {a b : Bytes} :
    SameEntry (entryFor g a) (entryFor g' b) ↔ g = g' ∧ Alike a b := by
  unfold SameEntry entryFor Alike
  simp only [Option.some.injEq, Option.map_some, sameText_iff]
  exact and_congr_left fun _ => ⟨Guid.bytes_inj, fun h => by rw [h]⟩

theorem pairwise_expectedEntries (spellings : List Bytes) :
    ((expectedEntries spellings).Pairwise fun a b => ¬ SameEntry a b) ↔
      spellings.Pairwise fun a b => ¬ Alike a b := by
  have hguid : kPsPublicStrings ≠ kPsInternetHeaders := by decide
  rw [expectedEntries, List.pairwise_cons, List.pairwise_map]
  simp only [sameEntry_iff, true_and]
  refine and_iff_right ?_
  intro e he hsame
  obtain ⟨name, -, rfl⟩ := List.mem_map.1 he
  exact hguid (sameEntry_iff.1 hsame).1

/-! ## What is written -/

theorem writeData_short {data : Bytes} {w w' : NdbWriter} {bid : Nat}
    (h : writeData data w = .ok bid w') : data.length < 2 ^ 32 := by
  unfold writeData at h
  rcases ite_eq_ok.1 h with ⟨hsmall, -⟩ | ⟨hbig, h⟩
  · have hmax : kMaxBlockData = 8176 := rfl
    omega
  obtain ⟨leaves, w₁, hleaves, htree⟩ := bind_eq_ok.1 h
  have hcount := each_length hleaves
  rw [pieces_length] at hcount
  have hpast : 1 < passes data.length kMaxBlockData :=
    (lt_passes (by decide)).2 (by rw [Nat.one_mul]; exact Nat.not_le.1 hbig)
  rw [← hcount] at hpast
  match leaves, hpast, htree with
  | [], hpast, _ => exact absurd hpast (by decide)
  | [leaf], hpast, _ => exact absurd hpast (lt_irrefl 1)
  | leaf :: leaf' :: leaves, _, htree =>
    simp only [assembleDataTree] at htree
    rcases ite_eq_ok.1 htree with ⟨-, hthrow⟩ | ⟨hle, -⟩
    · obtain ⟨_, _, hthrow, -⟩ := bind_eq_ok.1 hthrow
      cases hthrow
    · omega

theorem storeBytes_short {data : Bytes} {hnid : Nat}
    {t t' : (NdbWriter × SubnodeAllocator) × HeapNode} (h : storeBytes data t = .ok hnid t') :
    data.length < 2 ^ 32 := by
  unfold storeBytes at h
  rcases ite_eq_ok.1 h with ⟨hsmall, -⟩ | ⟨-, h⟩
  · have hmax : maxAllocSize = 8101 := by decide
    omega
  · obtain ⟨⟨w, s⟩, hn⟩ := t
    obtain ⟨⟨w', s'⟩, hn'⟩ := t'
    obtain ⟨hspill, -⟩ := onOuter_eq_ok.1 h
    obtain ⟨bid, hdata, -⟩ := SubnodeAllocator.spill_eq_ok.1 hspill
    exact writeData_short hdata

/-- A context with a value of 4 GiB or more is not written. -/
theorem short_of_written {std : StdSort} {pc : PropertyContext} {heap : Bytes}
    {s s' : NdbWriter × SubnodeAllocator} (hrun : pc.serialize std s = .ok heap s') {tag : Nat}
    {value : Bytes} (hmem : (tag, .bytes value) ∈ pc.values) : value.length < 2 ^ 32 := by
  unfold PropertyContext.serialize at hrun
  obtain ⟨⟨_, h⟩, ws₁, hlocal, -⟩ := bind_eq_ok.1 hrun
  replace hlocal := withLocal_eq_ok.1 hlocal
  unfold PropertyContext.build at hlocal
  obtain ⟨records, ws₂, hrecords, -⟩ := bind_eq_ok.1 hlocal
  obtain ⟨t₁, record, t₂, hone⟩ := each_mem_eq_ok hrecords hmem
  obtain ⟨hnid, t₃, hplace, -⟩ := bind_eq_ok.1 hone
  exact storeBytes_short hplace

theorem strings_short {std : StdSort} {names : NameIdMap} {heap : Bytes}
    {s s' : NdbWriter × SubnodeAllocator}
    (hwritten : names.buildPropertyContext.serialize std s = .ok heap s') :
    names.stringStream.length < 2 ^ 32 := by
  have hfind := names.find_buildPropertyContext 4
  rw [if_neg (by omega), NameIdMap.find_streams, if_pos rfl] at hfind
  exact short_of_written hwritten (List.mem_of_find?_eq_some hfind)

/-- No two entries that are written have one name in exactly the stores in which no two of the
header names that get an entry are the same text up to case. -/
theorem one_entry_per_name_iff {std : StdSort} (msgs : List Message) {heap : Bytes}
    {s s' : NdbWriter × SubnodeAllocator}
    (hwritten : (storeNames msgs).buildPropertyContext.serialize std s = .ok heap s') :
    OneEntryPerName (storeNames msgs).buildPropertyContext ↔
      (storedSpellings msgs).Pairwise fun a b => ¬ Alike a b := by
  have hholds := storeNames_holds msgs
  rw [OneEntryPerName, hholds.stringEntries (strings_short hwritten)]
  exact pairwise_expectedEntries _

/-! ## Names that are not UTF-8 -/

/-- Two header fields whose names are not UTF-8, and differ. -/
def illFormedBlock : Bytes :=
  str "X-" ++ [0xFF] ++ str ": 1\r\nX-" ++ [0xFE] ++ str ": 2\r\n\r\n"

def illFormedMessage : Message where
  headers := (Mime.parseHeaderBlock illFormedBlock).1.map fun h => ⟨h.name, h.value⟩

theorem built_of_no_attachments {m : Message} (h : m.attachments = []) : m.built = [m] := by
  rw [Message.built]
  simp [h]

theorem storeNames_illFormed :
    storeNames [illFormedMessage] = buildNames illFormedMessage initNames := by
  rw [storeNames, List.flatMap_singleton, built_of_no_attachments rfl]
  rfl

def isOk {ε σ α : Type} : EStateM.Result ε σ α → Bool
  | .ok _ _ => true
  | .error _ _ => false

theorem exists_of_isOk {ε σ α : Type} {r : EStateM.Result ε σ α} (h : isOk r = true) :
    ∃ a s, r = .ok a s := by
  cases r with
  | ok a s => exact ⟨a, s, rfl⟩
  | error e s => cases h

theorem illFormed_written : ∃ heap s', (storeNames [illFormedMessage]).buildPropertyContext.serialize
    .insertion ({ fate := fun _ => true }, {}) = .ok heap s' := by
  rw [storeNames_illFormed]
  exact exists_of_isOk (by decide +kernel)

theorem illFormed_spellings :
    storedSpellings [illFormedMessage] = [str "X-" ++ [0xFF], str "X-" ++ [0xFE]] := by
  rw [storedSpellings, headerNames, List.flatMap_singleton, built_of_no_attachments rfl]
  decide +kernel

theorem one_entry_per_name_iff_illFormed : ∃ heap s',
    (storeNames [illFormedMessage]).buildPropertyContext.serialize
      .insertion ({ fate := fun _ => true }, {}) = .ok heap s' ∧
    (OneEntryPerName (storeNames [illFormedMessage]).buildPropertyContext ↔
      (storedSpellings [illFormedMessage]).Pairwise fun a b => ¬ Alike a b) := by
  obtain ⟨heap, s', h⟩ := illFormed_written
  exact ⟨heap, s', h, one_entry_per_name_iff [illFormedMessage] h⟩

/-- Both names are stored as U+FFFD behind the prefix. -/
theorem two_entries_one_name : ∃ heap s',
    (storeNames [illFormedMessage]).buildPropertyContext.serialize
      .insertion ({ fate := fun _ => true }, {}) = .ok heap s' ∧
    ¬ OneEntryPerName (storeNames [illFormedMessage]).buildPropertyContext := by
  obtain ⟨heap, s', h⟩ := illFormed_written
  refine ⟨heap, s', h, fun hone => ?_⟩
  rw [OneEntryPerName, (storeNames_holds [illFormedMessage]).stringEntries (strings_short h),
    pairwise_expectedEntries] at hone
  have hpair : (storedSpellings [illFormedMessage]).Pairwise fun a b => ¬ Alike a b := hone
  rw [illFormed_spellings] at hpair
  revert hpair
  decide +kernel

end Pst
end Imap2Pst
