import Imap2Pst.Pst.NameTable

/-!
# Pst.NamedProperties

Ids that were handed out, looked up again in the written streams of the name-to-id map.

* `IdsResolve` — what a reader and the callers may expect of the ids of a run of calls.
* `Readable` — every string stands where its entry points to.
* `map_resolves_ids` — the expectation is met by exactly the runs that are safe and readable.
-/

namespace Imap2Pst
namespace Pst

open CxxStd

/-! ## Reading records -/

/-- An entry with what its fields keep of it. -/
def recordOf (e : NameEntry) : NameRecord where
  numeric := e.numeric % 2 ^ 32
  isString := e.isString
  wGuid := e.guidIndex % 2 ^ 15
  propIndex := e.propIndex % 2 ^ 16

theorem readRecord_encode (e : NameEntry) : readRecord (NameIdMap.encode e) = recordOf e := by
  have hshift : e.guidIndex <<< 1 ||| (if e.isString then 1 else 0) =
      2 * e.guidIndex + if e.isString then 1 else 0 := by
    rw [Nat.shiftLeft_eq, Nat.mul_comm]
    cases e.isString
    · simp
    · exact (Nat.two_pow_add_eq_or_of_lt (i := 1) (by decide) e.guidIndex).symm
  have hnum : slice (NameIdMap.encode e) 0 4 = le 4 e.numeric := by
    rw [slice, List.drop_zero, NameIdMap.encode, List.append_assoc, List.take_left' (by simp)]
  have hguid : slice (NameIdMap.encode e) 4 2 =
      le 2 (2 * e.guidIndex + if e.isString then 1 else 0) := by
    rw [slice, NameIdMap.encode, hshift, List.append_assoc, List.drop_left' (by simp),
      List.take_left' (by simp)]
  have hprop : slice (NameIdMap.encode e) 6 2 = le 2 e.propIndex := by
    rw [slice, NameIdMap.encode, List.drop_left' (by simp), List.take_of_length_le (by simp)]
  rw [readRecord, hnum, hguid, hprop, fromLe_le, fromLe_le, fromLe_le, recordOf]
  congr 1
  · cases e.isString <;> simp
  · cases e.isString <;> simp <;> omega

theorem readRecords_encode (entries : List NameEntry) :
    readRecords (entries.flatMap NameIdMap.encode) = entries.map recordOf := by
  have hlen : ∀ e ∈ entries, (NameIdMap.encode e).length = 8 := fun e _ => by
    simp [NameIdMap.encode]
  rw [readRecords, pieces_flatMap (by decide) hlen, List.map_map]
  exact List.map_congr_left fun e _ => readRecord_encode e

theorem slice_guids {guids : List Guid} {i : Nat} (hi : i < guids.length) :
    slice (guids.flatMap Guid.bytes) (16 * i) 16 = guids[i].bytes := by
  rw [slice, Nat.mul_comm]
  exact drop_take_flatMap (fun g _ => g.bytes_length) hi

/-- A number is read as the GUID it was given to. -/
theorem readGuid_iff {guids : List Guid} (h : GuidsOk guids) {g : Guid} (hg : Seen guids g)
    {w : Nat} : readGuid (guids.flatMap Guid.bytes) w = some g.bytes ↔ w = wGuid guids g := by
  have hlen : (guids.flatMap Guid.bytes).length = guids.length * 16 :=
    length_flatMap_of_forall fun g _ => g.bytes_length
  constructor
  · unfold readGuid
    intro hread
    split at hread
    · obtain rfl := Guid.bytes_inj (Option.some.inj hread)
      assumption
    split at hread
    · obtain rfl := Guid.bytes_inj (Option.some.inj hread)
      assumption
    split at hread
    · rename_i hw
      have hi : w - 3 < guids.length := by omega
      have hget : guids[w - 3] = g :=
        Guid.bytes_inj ((slice_guids hi).symm.trans (Option.some.inj hread))
      have hmem : g ∈ guids := hget ▸ List.getElem_mem hi
      have hmapi : g ≠ kPsMapi := fun heq => h.mapi (heq ▸ hmem)
      have hstrings : g ≠ kPsPublicStrings := fun heq => h.strings (heq ▸ hmem)
      rw [wGuid, if_neg hmapi, if_neg hstrings, ← hget, h.nodup.idxOf_getElem]
      omega
    · cases hread
  · rintro rfl
    unfold wGuid
    by_cases hmapi : g = kPsMapi
    · rw [if_pos hmapi, hmapi]
      rfl
    by_cases hstrings : g = kPsPublicStrings
    · rw [if_neg hmapi, if_pos hstrings, hstrings]
      rfl
    have hi := List.idxOf_lt_length_iff.2 ((hg.resolve_left hmapi).resolve_left hstrings)
    rw [if_neg hmapi, if_neg hstrings, readGuid, if_neg (by omega), if_neg (by omega),
      if_pos (by omega), Nat.add_sub_cancel_left, slice_guids hi, List.getElem_idxOf]

/-- A string is read where its length and its octets stand. -/
theorem readString_iff {stream s : Bytes} {offset : Nat} :
    readString stream offset = some s ↔
      s.length < 2 ^ 32 ∧ le 4 s.length ++ s <+: stream.drop offset := by
  simp only [readString]
  constructor
  · intro hread
    split at hread
    · rename_i hfits
      have hs := Option.some.inj hread
      have hhead : (slice stream offset 4).length = 4 := slice_length (by omega)
      have hlen : s.length = fromLe (slice stream offset 4) := by
        rw [← hs]
        exact slice_length hfits
      have hlt := fromLe_lt (slice stream offset 4)
      have hle := le_fromLe (slice stream offset 4)
      rw [hhead] at hlt hle
      have htail : s ++ (stream.drop (offset + 4)).drop s.length = stream.drop (offset + 4) := by
        rw [hlen, ← hs, slice, List.take_append_drop]
      refine ⟨hlen ▸ hlt, (stream.drop (offset + 4)).drop s.length, ?_⟩
      rw [List.append_assoc, htail, hlen, hle, slice, ← List.drop_drop, List.take_append_drop]
    · cases hread
  · rintro ⟨hlt, rest, hrest⟩
    rw [List.append_assoc] at hrest
    have hlen : fromLe (slice stream offset 4) = s.length := by
      rw [slice, ← hrest, List.take_left' (le_length 4 _), fromLe_le_of_lt hlt]
    have htotal := congrArg List.length hrest
    have hdata : slice stream (offset + 4) s.length = s := by
      rw [slice, ← List.drop_drop, ← hrest, List.drop_left' (le_length 4 _), List.take_left]
    simp only [List.length_append, le_length, List.length_drop] at htotal
    rw [hlen, if_pos (by omega), hdata]

theorem readNamed_iff {pc : PropertyContext} {id : Nat} {guid : Bytes} {name : StoredName} :
    readNamed pc id = some (guid, name) ↔ ∃ r, readEntry pc id = some r ∧
      readGuid (streamOf pc 0x0002) r.wGuid = some guid ∧
      readName (streamOf pc 0x0004) r = some name := by
  simp [readNamed, Option.bind_eq_some_iff]

/-! ## Every map -/

namespace NameIdMap

/-- What holds of the map after any calls. -/
structure Ok (m : NameIdMap) : Prop where
  guids : GuidsOk m.extraGuids
  index : ∀ i (e : NameEntry), m.entries[i]? = some e → e.propIndex = i
  small : m.entries.length ≤ kMaxNames
  ids : ∀ w name id, m.lookup w name = some id →
    kFirstNamedId ≤ id ∧ id < kFirstNamedId + m.entries.length
  apart : ∀ w name w' name' id, m.lookup w name = some id → m.lookup w' name' = some id →
    w = w' ∧ name.fold = name'.fold

theorem lookup_start (w : Nat) (name : Name) : NameIdMap.lookup w {} name = none := by
  cases name <;> rfl

theorem Ok.start : Ok {} := by
  refine ⟨NameTable.Ok.start.guids, by simp, Nat.zero_le _, fun w name id h => ?_,
    fun w name w' name' id h _ => ?_⟩
  · rw [lookup_start] at h
    cases h
  · rw [lookup_start] at h
    cases h

theorem lookup_see (w : Nat) (m : NameIdMap) (g : Guid) (name : Name) :
    NameIdMap.lookup w { m with extraGuids := see m.extraGuids g } name = m.lookup w name := by
  cases name <;> rfl

theorem Ok.see {m : NameIdMap} (h : m.Ok) (g : Guid) :
    Ok { m with extraGuids := see m.extraGuids g } := by
  refine ⟨h.guids.see g, h.index, h.small, fun w name id hid => ?_,
    fun w name w' name' id hid hid' => ?_⟩
  · rw [lookup_see] at hid
    exact h.ids w name id hid
  · rw [lookup_see] at hid hid'
    exact h.apart w name w' name' id hid hid'

theorem nextPropIndex_eq {m : NameIdMap} (h : m.Ok) : m.nextPropIndex = m.entries.length := by
  have hsmall := h.small
  have hmax : kMaxNames = 4096 := rfl
  exact Nat.mod_eq_of_lt (by omega)

theorem nextId_eq {m : NameIdMap} (h : m.Ok) : m.nextId = kFirstNamedId + m.entries.length := by
  have hsmall := h.small
  have hmax : kMaxNames = 4096 := rfl
  have hfirst : kFirstNamedId = 0x8000 := rfl
  rw [nextId, nextPropIndex_eq h]
  exact Nat.mod_eq_of_lt (by omega)

theorem mint_entries (w : Nat) (m : NameIdMap) (name : Name) :
    ∃ e, (m.mint w name).entries = m.entries ++ [e] ∧ e.guidIndex = w ∧
      e.propIndex = m.nextPropIndex := by
  cases name with
  | string s => exact ⟨_, rfl, rfl, rfl⟩
  | number id => exact ⟨_, rfl, rfl, rfl⟩

theorem mint_guids (w : Nat) (m : NameIdMap) (name : Name) :
    (m.mint w name).extraGuids = m.extraGuids := by
  cases name <;> rfl

theorem Ok.mint {m : NameIdMap} (h : m.Ok) {w : Nat} {name : Name}
    (hroom : m.entries.length < kMaxNames) : (m.mint w name).Ok := by
  obtain ⟨e, hentries, -, hprop⟩ := m.mint_entries w name
  have hlen : (m.mint w name).entries.length = m.entries.length + 1 := by
    rw [hentries, List.length_append, List.length_singleton]
  have hid := nextId_eq h
  refine ⟨?_, fun i e' he' => ?_, hlen ▸ hroom, fun w' name' id hid' => ?_,
    fun w' name' w'' name'' id hid' hid'' => ?_⟩
  · rw [mint_guids]
    exact h.guids
  · rw [hentries] at he'
    rcases getElem?_concat.1 he' with he' | ⟨rfl, rfl⟩
    · exact h.index i e' he'
    · rw [hprop, nextPropIndex_eq h]
  · rw [lookup_mint] at hid'
    split at hid'
    · cases hid'
      omega
    · have hold := h.ids w' name' id hid'
      omega
  · rw [lookup_mint] at hid' hid''
    split at hid' <;> split at hid''
    · rename_i hnew hnew'
      exact ⟨hnew.1.trans hnew'.1.symm, hnew.2.symm.trans hnew'.2⟩
    · have hold := h.ids w'' name'' id hid''
      cases hid'
      omega
    · have hold := h.ids w' name' id hid'
      cases hid''
      omega
    · exact h.apart w' name' w'' name'' id hid' hid''

/-- What a call does to the map once its GUID has a number. -/
theorem idUnder_cases (w : Nat) (name : Name) (m : NameIdMap) :
    (m.idUnder w name).2 = m ∨
      m.entries.length < kMaxNames ∧ m.idUnder w name = (m.nextId, m.mint w name) := by
  unfold idUnder
  split
  · exact .inl rfl
  · split
    · exact .inl rfl
    · rename_i hroom
      exact .inr ⟨Nat.not_le.1 hroom, rfl⟩

theorem idUnder_old {w id : Nat} {name : Name} {m : NameIdMap} (hold : m.lookup w name = some id) :
    m.idUnder w name = (id, m) := by
  rw [idUnder, hold]

theorem idUnder_full {w : Nat} {name : Name} {m : NameIdMap} (hnew : m.lookup w name = none)
    (hfull : kMaxNames ≤ m.entries.length) : m.idUnder w name = (0, m) := by
  rw [idUnder, hnew]
  exact if_pos hfull

theorem idUnder_new {w : Nat} {name : Name} {m : NameIdMap} (hnew : m.lookup w name = none)
    (hroom : m.entries.length < kMaxNames) :
    m.idUnder w name = (m.nextId, m.mint w name) := by
  rw [idUnder, hnew]
  exact if_neg (Nat.not_le.2 hroom)

end NameIdMap

theorem NameCall.run_eq {c : NameCall} {n : Named} (hn : c.named = some n) (m : NameIdMap) :
    c.run m = NameIdMap.idUnder (wGuid (see m.extraGuids n.guid) n.guid % 2 ^ 16) n.name
      { m with extraGuids := see m.extraGuids n.guid } := by
  rw [(run_of_named hn m).1, NameIdMap.idFor, NameIdMap.guidIndex_eq]

theorem NameCall.run_cases (c : NameCall) (m : NameIdMap) :
    let seen : NameIdMap := { m with extraGuids := see m.extraGuids c.guid }
    (c.run m).2 = seen ∨
      ∃ w name, seen.entries.length < kMaxNames ∧ (c.run m).2 = seen.mint w name := by
  intro seen
  cases hnamed : c.named with
  | none =>
    rw [run_of_unnamed hnamed, NameIdMap.ensureGuid, NameIdMap.guidIndex_eq]
    exact .inl rfl
  | some n =>
    have hrun := run_eq hnamed m
    rw [← (run_of_named hnamed m).2] at hrun
    rcases seen.idUnder_cases (wGuid seen.extraGuids c.guid % 2 ^ 16) n.name with h | ⟨hroom, h⟩
    · exact .inl (hrun ▸ h)
    · exact .inr ⟨_, _, hroom, by rw [hrun, h]⟩

theorem NameIdMap.Ok.run {m : NameIdMap} (h : m.Ok) (c : NameCall) : (c.run m).2.Ok := by
  have hseen := h.see c.guid
  obtain hsame | ⟨w, name, hroom, hmint⟩ := c.run_cases m
  · rw [hsame]
    exact hseen
  · rw [hmint]
    exact hseen.mint hroom

theorem NameIdMap.Ok.runCalls {m : NameIdMap} (h : m.Ok) (calls : List NameCall) :
    (runCalls calls m).2.Ok := by
  induction calls generalizing m with
  | nil => exact h
  | cons c calls ih => exact ih (h.run c)

/-- Nothing that was entered is lost. -/
structure NameIdMap.Keeps (m m' : NameIdMap) : Prop where
  entries : m.entries <+: m'.entries
  guids : m.extraGuids <+: m'.extraGuids

theorem NameCall.run_keeps (c : NameCall) (m : NameIdMap) : m.Keeps (c.run m).2 := by
  have hgrows := see_grows m.extraGuids c.guid
  obtain hsame | ⟨w, name, -, hmint⟩ := c.run_cases m
  · rw [hsame]
    exact ⟨List.prefix_rfl, hgrows⟩
  · obtain ⟨e, hentries, -, -⟩ :=
      NameIdMap.mint_entries w { m with extraGuids := see m.extraGuids c.guid } name
    rw [hmint]
    refine ⟨?_, ?_⟩
    · rw [hentries]
      exact List.prefix_append _ _
    · rw [NameIdMap.mint_guids]
      exact hgrows

theorem runCalls_keeps (calls : List NameCall) (m : NameIdMap) :
    m.Keeps (runCalls calls m).2 := by
  induction calls generalizing m with
  | nil => exact ⟨List.prefix_rfl, List.prefix_rfl⟩
  | cons c calls ih =>
    have hhead := c.run_keeps m
    have htail := ih (c.run m).2
    exact ⟨hhead.entries.trans htail.entries, hhead.guids.trans htail.guids⟩

theorem runCalls_length (calls : List NameCall) (m : NameIdMap) :
    (runCalls calls m).1.length = calls.length := by
  induction calls generalizing m with
  | nil => rfl
  | cons c calls ih => exact congrArg (· + 1) (ih _)

/-! ## What a reader finds -/

namespace NameIdMap

theorem readRecords_entries (m : NameIdMap) :
    readRecords (streamOf m.buildPropertyContext 0x0003) = m.entries.map recordOf := by
  rw [streamOf_entries]
  exact readRecords_encode m.entries

theorem Ok.propIndex_records {m : NameIdMap} (h : m.Ok) :
    (m.entries.map recordOf).map NameRecord.propIndex = List.range m.entries.length := by
  refine List.ext_getElem (by simp) fun i hi _ => ?_
  have hlt : i < m.entries.length := by simpa using hi
  have hindex := h.index i m.entries[i] (List.getElem?_eq_getElem hlt)
  have hsmall := h.small
  have hmax : kMaxNames = 4096 := rfl
  simp only [List.getElem_map, recordOf, List.getElem_range, hindex]
  exact Nat.mod_eq_of_lt (by omega)

theorem Ok.nodup_records {m : NameIdMap} (h : m.Ok) : (m.entries.map recordOf).Nodup := by
  have hnodup := List.nodup_range (n := m.entries.length)
  rw [← h.propIndex_records] at hnodup
  exact hnodup.of_map _

/-- The index of an id leads to its entry. -/
theorem Ok.readEntry {m : NameIdMap} (h : m.Ok) {i : Nat} {e : NameEntry}
    (he : m.entries[i]? = some e) :
    readEntry m.buildPropertyContext (kFirstNamedId + i) = some (recordOf e) := by
  obtain ⟨hi, hget⟩ := List.getElem?_eq_some_iff.1 he
  have hsmall := h.small
  have hmax : kMaxNames = 4096 := rfl
  have hnodup := List.nodup_range (n := m.entries.length)
  rw [← h.propIndex_records] at hnodup
  rw [Pst.readEntry, readRecords_entries, Nat.add_sub_cancel_left, find?_key_eq_some hnodup]
  refine ⟨List.mem_map_of_mem (List.mem_of_getElem? he), ?_⟩
  rw [recordOf, h.index i e he]
  exact Nat.mod_eq_of_lt (by omega)

/-- The GUID that an entry leads to has the number it keeps. -/
theorem Ok.guid_of_readNamed {m : NameIdMap} (h : m.Ok) {i : Nat} {e : NameEntry}
    (he : m.entries[i]? = some e) {g : Guid} (hg : Seen m.extraGuids g) {name : StoredName}
    (hread : readNamed m.buildPropertyContext (kFirstNamedId + i) = some (g.bytes, name)) :
    e.guidIndex % 2 ^ 15 = wGuid m.extraGuids g := by
  obtain ⟨r, hr, hguid, -⟩ := readNamed_iff.1 hread
  obtain rfl := Option.some.inj ((h.readEntry he).symm.trans hr)
  rw [streamOf_guids, guidStream] at hguid
  exact (readGuid_iff h.guids hg).1 hguid

/-- An entry is in its bucket once, and in no other. -/
theorem Ok.count_bucket {m : NameIdMap} (h : m.Ok) {e : NameEntry} (he : e ∈ m.entries)
    {b : Nat} (hb : b < kBucketCount) :
    (readRecords (streamOf m.buildPropertyContext (0x1000 + b))).count (recordOf e) =
      if bucketOf e = b then 1 else 0 := by
  rw [streamOf_bucket m hb, bucket, readRecords_encode]
  have hnodup : ((m.entries.filter fun e => bucketOf e = b).map recordOf).Nodup :=
    h.nodup_records.sublist (List.filter_sublist.map recordOf)
  rw [hnodup.count]
  refine if_congr ⟨fun hmem => ?_, fun hbucket => ?_⟩ rfl rfl
  · obtain ⟨e', he', hsame⟩ := List.mem_map.1 hmem
    obtain ⟨hmem', hbucket⟩ := List.mem_filter.1 he'
    obtain rfl := List.inj_on_of_nodup_map h.nodup_records hmem' he hsame
    exact of_decide_eq_true hbucket
  · exact List.mem_map_of_mem (List.mem_filter.2 ⟨he, decide_eq_true hbucket⟩)

end NameIdMap

/-! ## Requests -/

/-- The names that were asked for, each with the id that was returned. -/
def requests (calls : List NameCall) (ids : List Nat) : List (Named × Nat) :=
  (calls.zip ids).filterMap fun p => p.1.named.map fun n => (n, p.2)

/-- The name with a key that was seen first. -/
def firstSeen (calls : List NameCall) (key : Guid × Name) : Option Named :=
  (calls.filterMap NameCall.named).find? fun n => n.key = key

theorem requests_append {calls calls' : List NameCall} {ids ids' : List Nat}
    (h : calls.length = ids.length) :
    requests (calls ++ calls') (ids ++ ids') = requests calls ids ++ requests calls' ids' := by
  rw [requests, List.zip_append h, List.filterMap_append]
  rfl

theorem mem_requests_answers {t : NameTable} {calls : List NameCall} {p : Named × Nat} :
    p ∈ requests calls (calls.map t.answer) ↔
      p.1 ∈ calls.filterMap NameCall.named ∧ p.2 = t.idOf p.1.key := by
  induction calls with
  | nil => simp [requests]
  | cons c calls ih =>
    have hcons : requests (c :: calls) ((c :: calls).map t.answer) =
        requests [c] [t.answer c] ++ requests calls (calls.map t.answer) :=
      @requests_append [c] calls [t.answer c] _ rfl
    rw [hcons, List.mem_append, ih, List.filterMap_cons]
    cases hn : c.named with
    | none => simp [requests, hn]
    | some n =>
      obtain ⟨n', id⟩ := p
      have hhead : requests [c] [t.answer c] = [(n, t.idOf n.key)] := by
        simp [requests, NameTable.answer, hn]
      rw [hhead, List.mem_singleton, List.mem_cons, or_and_right]
      refine or_congr_left ⟨?_, ?_⟩
      · rintro ⟨rfl⟩
        exact ⟨rfl, rfl⟩
      · rintro ⟨rfl, hid⟩
        exact Prod.ext rfl hid

/-- What may be expected of the ids of a run, given the context that is written at its end. -/
structure IdsResolve (calls : List NameCall) (ids : List Nat) (pc : PropertyContext) : Prop where
  range : ∀ p ∈ requests calls ids, p.2 ≠ 0 → ∃ i < kMaxNames, p.2 = kFirstNamedId + i
  same : ∀ p ∈ requests calls ids, ∀ q ∈ requests calls ids, p.1.key = q.1.key → p.2 = q.2
  apart : ∀ p ∈ requests calls ids, ∀ q ∈ requests calls ids, p.1.key ≠ q.1.key → p.2 ≠ 0 →
    p.2 ≠ q.2
  entry : ∀ p ∈ requests calls ids, p.2 ≠ 0 → ∃ r first,
    readEntry pc p.2 = some r ∧ firstSeen calls p.1.key = some first ∧
    readNamed pc p.2 = some (p.1.guid.bytes, first.name.stored) ∧
    (r.isString → 4 ∣ r.numeric) ∧
    ∀ b < kBucketCount, (readRecords (streamOf pc (0x1000 + b))).count r =
      if (first.name.stored.hash ^^^ r.wGuid) % kBucketCount = b then 1 else 0

/-- Every string stands, with its length, where its entry says. -/
def Readable (t : NameTable) : Prop :=
  ∀ i n s, t.names[i]? = some n → n.name = .string s →
    (utf8ToUtf16le s).length < 2 ^ 32 ∧
    le 4 (utf8ToUtf16le s).length ++ utf8ToUtf16le s <+:
      (t.names.flatMap fun n => n.name.record).drop (offsetOf t.names i % 2 ^ 32)

/-- Strings can be read as long as they are not too long together. -/
theorem readable_of_short {t : NameTable}
    (h : (t.names.flatMap fun n => n.name.record).length < 2 ^ 32) : Readable t := by
  intro i n s hn hs
  obtain ⟨hi, hget⟩ := List.getElem?_eq_some_iff.1 hn
  have hsplit := flatMap_split (f := fun n : Named => n.name.record) hi
  have hrecord : n.name.record = le 4 (utf8ToUtf16le s).length ++ utf8ToUtf16le s ++
      List.replicate (alignUp (4 + (utf8ToUtf16le s).length) 4 -
        (4 + (utf8ToUtf16le s).length)) 0 := by
    rw [hs, Name.record, stringRecord, padToFour, List.length_append, le_length]
  have hlen := congrArg List.length hsplit
  have hrlen := congrArg List.length hrecord
  rw [hget] at hsplit hlen
  simp only [List.length_append, le_length] at hlen hrlen
  have hoffset : offsetOf t.names i % 2 ^ 32 = offsetOf t.names i :=
    Nat.mod_eq_of_lt (by unfold offsetOf; omega)
  refine ⟨by omega, ?_⟩
  rw [hoffset, hsplit, List.append_assoc, offsetOf, List.drop_left' rfl, hrecord,
    List.append_assoc]
  exact List.prefix_append _ _

theorem firstSeen_of_key {calls : List NameCall} {key : Guid × Name}
    (hkey : key ∈ (NameTable.after calls {}).keys) :
    ∃ (i : Nat) (n : Named), (NameTable.after calls {}).names[i]? = some n ∧ n.key = key ∧
      firstSeen calls key = some n := by
  obtain ⟨n, hmem, rfl⟩ := List.mem_map.1 hkey
  obtain ⟨i, hn⟩ := List.mem_iff_getElem?.1 hmem
  refine ⟨i, n, hn, rfl, ?_⟩
  have hfind := NameTable.find_after hkey
  rw [(find?_key_eq_some (NameTable.Ok.start.after calls).nodup).2 ⟨hmem, rfl⟩] at hfind
  exact hfind.symm

theorem aligned_entryOf (t : NameTable) (i : Nat) (n : Named)
    (h : (recordOf (entryOf t i n)).isString = true) :
    4 ∣ (recordOf (entryOf t i n)).numeric := by
  obtain ⟨guid, name⟩ := n
  cases name with
  | string s =>
    have hdvd : 4 ∣ offsetOf t.names i := dvd_records (t.names.take i)
    show 4 ∣ offsetOf t.names i % 2 ^ 32 % 2 ^ 32
    omega
  | number id => cases h

/-- The string of an entry is read exactly where it is readable. -/
theorem readName_iff {t : NameTable} {m : NameIdMap} (h : Represents t m) {i : Nat} {n : Named} :
    readName m.stringStream (recordOf (entryOf t i n)) = some n.name.stored ↔
      ∀ s, n.name = .string s → (utf8ToUtf16le s).length < 2 ^ 32 ∧
        le 4 (utf8ToUtf16le s).length ++ utf8ToUtf16le s <+:
          (t.names.flatMap fun n => n.name.record).drop (offsetOf t.names i % 2 ^ 32) := by
  obtain ⟨guid, name⟩ := n
  cases name with
  | string s =>
    have hread : readName m.stringStream (recordOf (entryOf t i ⟨guid, .string s⟩)) =
        (readString m.stringStream (offsetOf t.names i % 2 ^ 32)).map .string := by
      simp only [readName, recordOf, entryOf, Name.isString, Nat.mod_mod, if_true]
    rw [hread, h.strings]
    simp only [Name.stored, Option.map_eq_some_iff, StoredName.string.injEq, exists_eq_right,
      readString_iff, Name.string.injEq, forall_eq']
  | number id =>
    simp [readName, recordOf, entryOf, Name.isString, Name.stored]

theorem entry_of_key {calls : List NameCall} (hsafe : SafeFrom {} calls) {i : Nat} {n : Named}
    (hn : (NameTable.after calls {}).names[i]? = some n) :
    readEntry (runCalls calls {}).2.buildPropertyContext (kFirstNamedId + i) =
      some (recordOf (entryOf (NameTable.after calls {}) i n)) := by
  obtain ⟨hrep, -⟩ := runCalls_represents .start .start hsafe
  exact (NameIdMap.Ok.start.runCalls calls).readEntry (hrep.entries i n hn)

theorem resolves_of_safe {calls : List NameCall} (hsafe : SafeFrom {} calls)
    (hread : Readable (NameTable.after calls {})) :
    IdsResolve calls (runCalls calls {}).1 (runCalls calls {}).2.buildPropertyContext := by
  obtain ⟨hrep, hids⟩ := runCalls_represents .start .start hsafe
  have hok := NameTable.Ok.start.after calls
  have hok' := NameIdMap.Ok.start.runCalls calls
  have hfirst : kFirstNamedId = 0x8000 := rfl
  rw [hids]
  refine ⟨fun p hp hne => ?_, fun p hp q hq heq => ?_, fun p hp q hq hne hsome heq => ?_,
    fun p hp hne => ?_⟩
  · obtain ⟨-, hid⟩ := mem_requests_answers.1 hp
    rw [hid, NameTable.idOf_ne_zero] at hne
    refine ⟨_, ?_, by rw [hid, NameTable.idOf, if_pos hne]⟩
    have hlt := List.idxOf_lt_length_iff.2 hne
    rw [NameTable.keys, List.length_map] at hlt
    exact Nat.lt_of_lt_of_le hlt hok.small
  · rw [(mem_requests_answers.1 hp).2, (mem_requests_answers.1 hq).2, heq]
  · rw [(mem_requests_answers.1 hp).2, (mem_requests_answers.1 hq).2] at heq
    rw [(mem_requests_answers.1 hp).2] at hsome
    have hkey := NameTable.idOf_ne_zero.1 hsome
    have hkey' := NameTable.idOf_ne_zero.1 (heq ▸ hsome)
    rw [NameTable.idOf, NameTable.idOf, if_pos hkey, if_pos hkey'] at heq
    exact hne ((List.idxOf_inj hkey).1 (Nat.add_left_cancel heq))
  · obtain ⟨-, hid⟩ := mem_requests_answers.1 hp
    rw [hid, NameTable.idOf_ne_zero] at hne
    obtain ⟨i, n, hn, hkey, hseen⟩ := firstSeen_of_key hne
    have hmem := List.mem_of_getElem? hn
    have hfits := hrep.fits n hmem
    have hguid : n.guid = p.1.guid := congrArg Prod.fst hkey
    have hentry := entry_of_key hsafe hn
    have hwguid : (recordOf (entryOf (NameTable.after calls {}) i n)).wGuid =
        wGuid (NameTable.after calls {}).guids n.guid := Nat.mod_eq_of_lt hfits
    rw [hid, ← hkey, NameTable.idOf_name hok hn]
    refine ⟨_, n, hentry, hkey ▸ hseen, ?_, aligned_entryOf _ i n, fun b hb => ?_⟩
    · rw [readNamed_iff]
      refine ⟨_, hentry, ?_, ?_⟩
      · rw [NameIdMap.streamOf_guids, NameIdMap.guidStream, hrep.guids, ← hguid, hwguid]
        exact (readGuid_iff hok.guids (hok.seen n hmem)).2 rfl
      · rw [NameIdMap.streamOf_strings, readName_iff hrep]
        exact fun s hs => hread i n s hn hs
    · rw [hok'.count_bucket (List.mem_of_getElem? (hrep.entries i n hn)) hb, hwguid]
      rfl

/-- A run is safe, or there is a first call that is not. -/
theorem safeFrom_or (t : NameTable) (calls : List NameCall) :
    SafeFrom t calls ∨ ∃ before c rest, calls = before ++ c :: rest ∧ SafeFrom t before ∧
      ¬ Safe (t.after before) c := by
  induction calls generalizing t with
  | nil => exact .inl trivial
  | cons c calls ih =>
    by_cases hc : Safe t c
    · rcases ih (t.step c) with h | ⟨before, c', rest, rfl, hbefore, hc'⟩
      · exact .inl ⟨hc, h⟩
      · exact .inr ⟨c :: before, c', rest, rfl, ⟨hc, hbefore⟩, hc'⟩
    · exact .inr ⟨[], c, calls, rfl, trivial, hc⟩

/-- After the first call that is not safe, two names share an id, or one resolves to a GUID that
is not its own. -/
theorem not_resolves_of_not_safe {before rest : List NameCall} {c : NameCall}
    (hbefore : SafeFrom {} before) (hc : ¬ Safe (NameTable.after before {}) c) :
    ¬ IdsResolve (before ++ c :: rest) (runCalls (before ++ c :: rest) {}).1
      (runCalls (before ++ c :: rest) {}).2.buildPropertyContext := by
  intro hres
  obtain ⟨hrep, hids⟩ := runCalls_represents .start .start hbefore
  have hok := NameTable.Ok.start.after before
  have hmap := NameIdMap.Ok.start.runCalls before
  have hfinal := NameIdMap.Ok.start.runCalls (before ++ c :: rest)
  have hentered (n' : Named) (hmem : n' ∈ (NameTable.after before {}).names) :=
    (NameTable.names_after hmem).resolve_left List.not_mem_nil
  rw [runCalls_append] at hres hfinal
  generalize (runCalls before {}).2 = m at *
  generalize NameTable.after before {} = t at *
  simp only [Safe, not_forall] at hc
  obtain ⟨n, hn, hfits⟩ := hc
  have hsplit := @requests_append before (c :: rest) (runCalls before {}).1
    (runCalls (c :: rest) m).1 (runCalls_length before {}).symm
  have hasked : (n, (c.run m).1) ∈ requests (before ++ c :: rest)
      ((runCalls before {}).1 ++ (runCalls (c :: rest) m).1) := by
    rw [hsplit]
    refine List.mem_append_right _ (List.mem_filterMap.2 ⟨(c, (c.run m).1), ?_, by rw [hn]; rfl⟩)
    exact List.mem_cons_self
  have hnew : n.key ∉ t.keys := fun h => hfits (.inl h)
  have hfirst : kFirstNamedId = 0x8000 := rfl
  have hrep' := hrep.see hok n.guid
  have hmap' := hmap.see n.guid
  have hrun := NameCall.run_eq hn m
  rw [hrep.guids] at hrep' hmap' hrun
  cases hfound : NameIdMap.lookup (wGuid (see t.guids n.guid) n.guid % 2 ^ 16)
    { m with extraGuids := see t.guids n.guid } n.name with
  | some id =>
    -- the id belongs to a name that was asked for before
    obtain ⟨i, n', hn', -, -, rfl⟩ := (hrep'.lookup _ _ _).1 hfound
    have hmem := List.mem_of_getElem? hn'
    have hkey : n'.key ≠ n.key := fun heq => hnew (heq ▸ List.mem_map_of_mem hmem)
    have hearlier : (n', kFirstNamedId + i) ∈ requests (before ++ c :: rest)
        ((runCalls before {}).1 ++ (runCalls (c :: rest) m).1) := by
      rw [hsplit, hids]
      exact List.mem_append_left _
        (mem_requests_answers.2 ⟨hentered n' hmem, (NameTable.idOf_name hok hn').symm⟩)
    refine hres.apart _ hearlier _ hasked hkey (by omega) ?_
    rw [hrun, NameIdMap.idUnder, hfound]
  | none =>
    -- the entry is new, and keeps fifteen bits of a larger number
    have hroom : t.names.length < kMaxNames := by
      by_contra hfull
      refine hfits (.inr (.inr ⟨Nat.not_lt.1 hfull, fun n' hmem hname hw => ?_⟩))
      obtain ⟨i, hn'⟩ := List.mem_iff_getElem?.1 hmem
      have hsome := (hrep'.lookup _ n.name _).2 ⟨i, n', hn', hw, hname, rfl⟩
      rw [hfound] at hsome
      cases hsome
    have hbig : ¬ wGuid (see t.guids n.guid) n.guid < 2 ^ 15 :=
      fun h => hfits (.inr (.inl ⟨hroom, h⟩))
    rw [NameIdMap.idUnder_new hfound (hrep.count ▸ hroom)] at hrun
    rw [hrun, NameIdMap.nextId_eq hmap'] at hasked
    obtain ⟨_, first, -, -, hread, -⟩ := hres.entry _ hasked (by simp only []; omega)
    obtain ⟨hentriesKept, hguidsKept⟩ := runCalls_keeps rest (c.run m).2
    obtain ⟨e, hentries, hguid, -⟩ := NameIdMap.mint_entries
      (wGuid (see t.guids n.guid) n.guid % 2 ^ 16)
      { m with extraGuids := see t.guids n.guid } n.name
    have hafter := congrArg Prod.snd hrun
    rw [hafter, hentries, ← hafter] at hentriesKept
    rw [hafter, NameIdMap.mint_guids, ← hafter] at hguidsKept
    have he : (runCalls rest (c.run m).2).2.entries[m.entries.length]? = some e := by
      obtain ⟨tail, htail⟩ := hentriesKept
      rw [← htail, List.append_assoc, List.getElem?_append_right le_rfl, Nat.sub_self]
      rfl
    have hseen := seen_see t.guids n.guid
    have hnumber := hfinal.guid_of_readNamed he (hseen.mono hguidsKept) hread
    have hkept := wGuid_mono hseen hguidsKept
    rw [hguid] at hnumber
    have hsame := hkept.symm.trans hnumber.symm
    exact hbig (hsame ▸ Nat.mod_lt _ (by decide))

theorem safe_of_resolves {calls : List NameCall}
    (h : IdsResolve calls (runCalls calls {}).1 (runCalls calls {}).2.buildPropertyContext) :
    SafeFrom {} calls := by
  rcases safeFrom_or {} calls with hsafe | ⟨before, c, rest, rfl, hbefore, hc⟩
  · exact hsafe
  · exact absurd h (not_resolves_of_not_safe hbefore hc)

theorem readable_of_resolves {calls : List NameCall} (hsafe : SafeFrom {} calls)
    (h : IdsResolve calls (runCalls calls {}).1 (runCalls calls {}).2.buildPropertyContext) :
    Readable (NameTable.after calls {}) := by
  intro i n s hn hs
  obtain ⟨hrep, hids⟩ := runCalls_represents .start .start hsafe
  have hok := NameTable.Ok.start.after calls
  have hmem := List.mem_of_getElem? hn
  have hfirst : kFirstNamedId = 0x8000 := rfl
  have hid := NameTable.idOf_name hok hn
  have hasked : (n, kFirstNamedId + i) ∈ requests calls (runCalls calls {}).1 := by
    rw [hids, ← hid]
    exact mem_requests_answers.2
      ⟨(NameTable.names_after hmem).resolve_left List.not_mem_nil, rfl⟩
  obtain ⟨_, first, -, hseen, hread, -⟩ := h.entry _ hasked (by simp only []; omega)
  obtain ⟨i', n', hn', hkey, hseen'⟩ := firstSeen_of_key (List.mem_map_of_mem hmem)
  obtain rfl := Option.some.inj (hseen.symm.trans hseen')
  have hsame := List.inj_on_of_nodup_map hok.nodup (List.mem_of_getElem? hn') hmem hkey
  obtain ⟨r, hr, -, hname⟩ := readNamed_iff.1 hread
  obtain rfl := Option.some.inj ((entry_of_key hsafe hn).symm.trans hr)
  rw [NameIdMap.streamOf_strings, hsame] at hname
  exact (readName_iff hrep).1 hname s hs

/-- Every id leads back to its name, and to no other name, in exactly the runs in which each GUID's
number fits where it is used and each string can be read where it stands. -/
theorem map_resolves_ids (calls : List NameCall) :
    IdsResolve calls (runCalls calls {}).1 (runCalls calls {}).2.buildPropertyContext ↔
      SafeFrom {} calls ∧ Readable (NameTable.after calls {}) := by
  constructor
  · intro h
    have hsafe := safe_of_resolves h
    exact ⟨hsafe, readable_of_resolves hsafe h⟩
  · rintro ⟨hsafe, hread⟩
    exact resolves_of_safe hsafe hread

/-! ## Too many GUIDs -/

def numberedGuid (i : Nat) : Guid := ⟨i.toUInt32, 0, 0, #v[0, 0, 0, 0, 0, 0, 0, 0]⟩

theorem numberedGuid_inj {i j : Nat} (hi : i < 2 ^ 32) (hj : j < 2 ^ 32)
    (h : numberedGuid i = numberedGuid j) : i = j := by
  have hdata := congrArg (fun g => g.data1.toNat) h
  simp only [numberedGuid, UInt32.toNat_ofNat'] at hdata
  omega

def ensureNumbered (k : Nat) : List NameCall :=
  (List.range k).map fun i => .ensureGuid (numberedGuid i)

theorem not_seen_numbered {k : Nat} (hk : k < 2 ^ 32) :
    ¬ Seen ((List.range k).map numberedGuid) (numberedGuid k) := by
  rintro (h | h | h)
  · exact absurd (congrArg Guid.data4 h) (by simp [numberedGuid, kPsMapi])
  · exact absurd (congrArg Guid.data4 h) (by simp [numberedGuid, kPsPublicStrings])
  · obtain ⟨i, hi, heq⟩ := List.mem_map.1 h
    have hlt := List.mem_range.1 hi
    have hsame := numberedGuid_inj (by omega) hk heq
    omega

theorem ensureNumbered_succ (k : Nat) :
    ensureNumbered (k + 1) = ensureNumbered k ++ [.ensureGuid (numberedGuid k)] := by
  rw [ensureNumbered, List.range_succ, List.map_append]
  rfl

theorem after_ensureNumbered {k : Nat} (hk : k ≤ 2 ^ 32) :
    NameTable.after (ensureNumbered k) {} = { guids := (List.range k).map numberedGuid } := by
  induction k with
  | zero => rfl
  | succ k ih =>
    have hnew := not_seen_numbered (k := k) (by omega)
    rw [ensureNumbered_succ, NameTable.after_append, ih (by omega), NameTable.after,
      List.foldl_cons, List.foldl_nil, NameTable.step_unnamed rfl, List.range_succ, List.map_append]
    simp only [NameCall.guid, see_of_not_seen hnew, List.map_cons, List.map_nil]

theorem safe_of_unnamed {calls : List NameCall} (h : ∀ c ∈ calls, c.named = none)
    (t : NameTable) : SafeFrom t calls := by
  induction calls generalizing t with
  | nil => trivial
  | cons c calls ih =>
    refine ⟨fun n hn => ?_, ih (fun c' hc' => h c' (List.mem_cons_of_mem _ hc')) _⟩
    rw [h c List.mem_cons_self] at hn
    cases hn

theorem wGuid_numbered {k : Nat} (hk : k < 2 ^ 32) :
    wGuid ((List.range (k + 1)).map numberedGuid) (numberedGuid k) = 3 + k := by
  have hnew := not_seen_numbered hk
  rw [List.range_succ, List.map_append, List.map_singleton, wGuid,
    if_neg fun h => hnew (.inl h), if_neg fun h => hnew (.inr (.inl h)),
    List.idxOf_append_of_notMem fun h => hnew (.inr (.inr h)), List.idxOf_cons_self,
    List.length_map, List.length_range, Nat.add_zero]

/-- The number of the last GUID shares its field with the kind of the name, and does not fit. -/
theorem not_resolves_of_many {k : Nat} (hmany : 2 ^ 15 ≤ 3 + k) (hk : k < 2 ^ 32) (id : UInt32)
    (rest : List NameCall) :
    let calls := ensureNumbered (k + 1) ++ .idForNumeric (numberedGuid k) id :: rest
    ¬ IdsResolve calls (runCalls calls {}).1 (runCalls calls {}).2.buildPropertyContext := by
  refine not_resolves_of_not_safe (safe_of_unnamed ?_ _) fun hsafe => ?_
  · intro c hc
    obtain ⟨i, -, rfl⟩ := List.mem_map.1 hc
    rfl
  · have hseen : Seen ((List.range (k + 1)).map numberedGuid) (numberedGuid k) :=
      .inr (.inr (List.mem_map_of_mem (List.mem_range.2 (Nat.lt_succ_self k))))
    have hfits := hsafe ⟨numberedGuid k, .number id⟩ rfl
    rw [after_ensureNumbered (by omega)] at hfits
    simp only [Fits, see_of_seen hseen, wGuid_numbered hk] at hfits
    obtain h | ⟨-, h⟩ | ⟨h, -⟩ := hfits
    · cases h
    · omega
    · exact absurd h (by decide)

theorem many_guids_do_not_resolve :
    let calls := ensureNumbered 32766 ++ [.idForNumeric (numberedGuid 32765) 0]
    ¬ IdsResolve calls (runCalls calls {}).1 (runCalls calls {}).2.buildPropertyContext :=
  not_resolves_of_many (k := 32765) (by decide) (by decide) 0 []

end Pst
end Imap2Pst
