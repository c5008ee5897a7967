import Imap2Pst.Pst.NameIdMap

/-!
# Pst.NameTable

What the name-to-id map is for: a table of GUIDs and a table of names, each numbered as it is
first seen. The map of the writer stands for the table as long as the numbers fit their fields.

* `NameTable.step` — the table after one call.
* `Safe` — the call meets no GUID whose number does not fit.
* `Represents` — the map holds the table; `run_represents` says that safe calls keep it so.
-/

namespace Imap2Pst
namespace Pst

open CxxStd

/-! ## Names -/

namespace Name

/-- The part of the key that is not the GUID. -/
def fold : Name → Name
  | string spelling => string (foldCase spelling)
  | number id => number id

def isString : Name → Bool
  | string _ => true
  | number _ => false

def stored : Name → StoredName
  | string spelling => .string (utf8ToUtf16le spelling)
  | number id => .number id.toNat

end Name

def StoredName.hash : StoredName → Nat
  | .string utf16 => computeCrc utf16
  | .number id => id

/-- A string as the string stream holds it: its length, its octets, and padding. -/
def stringRecord (utf16 : Bytes) : Bytes := padToFour (le 4 utf16.length ++ utf16)

/-- What a name adds to the string stream. -/
def Name.record : Name → Bytes
  | .string spelling => stringRecord (utf8ToUtf16le spelling)
  | .number _ => []

structure Named where
  guid : Guid
  name : Name
  deriving DecidableEq, Repr

def Named.key (n : Named) : Guid × Name := (n.guid, n.name.fold)

theorem dvd_padToFour (s : Bytes) : 4 ∣ (padToFour s).length := by
  have hle := le_alignUp (v := s.length) (a := 4) (by decide)
  rw [padToFour, List.length_append, List.length_replicate, Nat.add_sub_cancel' hle]
  exact dvd_alignUp _ _

theorem padToFour_append {a b : Bytes} (h : 4 ∣ a.length) :
    padToFour (a ++ b) = a ++ padToFour b := by
  obtain ⟨k, hk⟩ := h
  have halign : alignUp (a.length + b.length) 4 = a.length + alignUp b.length 4 := by
    rw [hk]
    unfold alignUp
    omega
  rw [padToFour, padToFour, List.append_assoc, List.length_append, halign,
    Nat.add_sub_add_left]

theorem dvd_record (n : Name) : 4 ∣ n.record.length := by
  cases n with
  | string spelling => exact dvd_padToFour _
  | number id => exact dvd_zero 4

theorem dvd_records (names : List Named) :
    4 ∣ (names.flatMap fun n => n.name.record).length := by
  induction names with
  | nil => exact dvd_zero 4
  | cons n names ih =>
    rw [List.flatMap_cons, List.length_append]
    exact Nat.dvd_add (dvd_record n.name) ih

/-! ## Numbered GUIDs -/

/-- The GUID has a number: it is predefined, or was seen. -/
def Seen (guids : List Guid) (g : Guid) : Prop :=
  g = kPsMapi ∨ g = kPsPublicStrings ∨ g ∈ guids

instance (guids : List Guid) (g : Guid) : Decidable (Seen guids g) := by
  unfold Seen
  infer_instance

def see (guids : List Guid) (g : Guid) : List Guid := if Seen guids g then guids else guids ++ [g]

/-- The number of a GUID that was seen. -/
def wGuid (guids : List Guid) (g : Guid) : Nat :=
  if g = kPsMapi then 1 else if g = kPsPublicStrings then 2 else 3 + guids.idxOf g

/-- No GUID has two numbers. -/
structure GuidsOk (guids : List Guid) : Prop where
  nodup : guids.Nodup
  mapi : kPsMapi ∉ guids
  strings : kPsPublicStrings ∉ guids

theorem see_of_seen {guids : List Guid} {g : Guid} (h : Seen guids g) : see guids g = guids :=
  if_pos h

theorem see_of_not_seen {guids : List Guid} {g : Guid} (h : ¬ Seen guids g) :
    see guids g = guids ++ [g] := if_neg h

theorem see_grows (guids : List Guid) (g : Guid) : guids <+: see guids g := by
  unfold see
  split
  · exact List.prefix_rfl
  · exact List.prefix_append _ _

theorem seen_see (guids : List Guid) (g : Guid) : Seen (see guids g) g := by
  unfold see
  split
  · assumption
  · exact .inr (.inr (List.mem_append_right _ List.mem_cons_self))

theorem Seen.mono {guids guids' : List Guid} {g : Guid} (h : Seen guids g)
    (hle : guids <+: guids') : Seen guids' g := by
  obtain h | h | h := h
  · exact .inl h
  · exact .inr (.inl h)
  · exact .inr (.inr (hle.subset h))

theorem GuidsOk.see {guids : List Guid} (h : GuidsOk guids) (g : Guid) : GuidsOk (see guids g) := by
  unfold Pst.see
  split
  · exact h
  · rename_i hnew
    have hmapi : g ≠ kPsMapi := fun heq => hnew (.inl heq)
    have hstrings : g ≠ kPsPublicStrings := fun heq => hnew (.inr (.inl heq))
    have hfresh : g ∉ guids := fun hmem => hnew (.inr (.inr hmem))
    refine ⟨List.nodup_append.2 ⟨h.nodup, by simp, ?_⟩, ?_, ?_⟩
    · rintro a ha b hb rfl
      exact hfresh (List.mem_singleton.1 hb ▸ ha)
    · simpa [h.mapi] using hmapi.symm
    · simpa [h.strings] using hstrings.symm

theorem wGuid_mono {guids guids' : List Guid} {g : Guid} (h : Seen guids g)
    (hle : guids <+: guids') : wGuid guids' g = wGuid guids g := by
  obtain ⟨rest, rfl⟩ := hle
  unfold wGuid
  obtain rfl | rfl | hmem := h
  · rfl
  · rfl
  · rw [List.idxOf_append_of_mem hmem]

theorem wGuid_inj {guids : List Guid} {g g' : Guid} (h : Seen guids g)
    (heq : wGuid guids g = wGuid guids g') : g = g' := by
  unfold wGuid at heq
  by_cases hm : g = kPsMapi
  · rw [if_pos hm] at heq
    by_cases hm' : g' = kPsMapi
    · rw [hm, hm']
    · rw [if_neg hm'] at heq
      split at heq <;> omega
  rw [if_neg hm] at heq
  by_cases hs : g = kPsPublicStrings
  · rw [if_pos hs] at heq
    by_cases hm' : g' = kPsMapi
    · rw [if_pos hm'] at heq
      omega
    · rw [if_neg hm'] at heq
      by_cases hs' : g' = kPsPublicStrings
      · rw [hs, hs']
      · rw [if_neg hs'] at heq
        omega
  rw [if_neg hs] at heq
  by_cases hm' : g' = kPsMapi
  · rw [if_pos hm'] at heq
    omega
  rw [if_neg hm'] at heq
  by_cases hs' : g' = kPsPublicStrings
  · rw [if_pos hs'] at heq
    omega
  rw [if_neg hs'] at heq
  have hmem : g ∈ guids := (h.resolve_left hm).resolve_left hs
  exact (List.idxOf_inj hmem).1 (by omega)

/-- The number of a GUID is found, or given; sixteen bits of it are kept. -/
theorem NameIdMap.guidIndex_eq (guid : Guid) (m : NameIdMap) :
    m.guidIndex guid = (wGuid (see m.extraGuids guid) guid % 2 ^ 16,
      { m with extraGuids := see m.extraGuids guid }) := by
  unfold guidIndex see wGuid
  by_cases hm : guid = kPsMapi
  · have hseen : Seen m.extraGuids guid := .inl hm
    rw [if_pos (Guid.same_iff.2 hm), if_pos hm, if_pos hseen]
    rfl
  rw [if_neg fun h => hm (Guid.same_iff.1 h), if_neg hm]
  by_cases hs : guid = kPsPublicStrings
  · have hseen : Seen m.extraGuids guid := .inr (.inl hs)
    rw [if_pos (Guid.same_iff.2 hs), if_pos hs, if_pos hseen]
    rfl
  rw [if_neg fun h => hs (Guid.same_iff.1 h), if_neg hs]
  have hsame : (fun g : Guid => g.same guid) = fun g => g == guid := by
    funext g
    rw [Bool.eq_iff_iff, Guid.same_iff, beq_iff_eq]
  rw [hsame]
  by_cases hmem : guid ∈ m.extraGuids
  · have hfind : m.extraGuids.findIdx? (fun g => g == guid) = some (m.extraGuids.idxOf guid) :=
      List.findIdx?_eq_some_iff_findIdx_eq.2 ⟨List.idxOf_lt_length_iff.2 hmem, rfl⟩
    have hseen : Seen m.extraGuids guid := .inr (.inr hmem)
    rw [hfind, if_pos hseen]
  · have hfind : m.extraGuids.findIdx? (fun g => g == guid) = none := by
      rw [List.findIdx?_eq_none_iff]
      rintro g hg
      exact beq_eq_false_iff_ne.2 fun heq => hmem (heq ▸ hg)
    have hnew : ¬ Seen m.extraGuids guid := fun h => by
      obtain h | h | h := h
      · exact hm h
      · exact hs h
      · exact hmem h
    rw [hfind, if_neg hnew, List.idxOf_append_of_notMem hmem, List.idxOf_cons_self]
    simp only [Nat.add_zero, Prod.mk.injEq, and_true]
    congr 1
    omega

/-! ## The calls -/

inductive NameCall where
  | idForString (guid : Guid) (name : Bytes)
  | idForNumeric (guid : Guid) (id : UInt32)
  | ensureGuid (guid : Guid)
  deriving DecidableEq, Repr

namespace NameCall

def guid : NameCall → Guid
  | idForString guid _ => guid
  | idForNumeric guid _ => guid
  | ensureGuid guid => guid

/-- What the call asks an id for. -/
def named : NameCall → Option Named
  | idForString guid name => some ⟨guid, .string name⟩
  | idForNumeric guid id => some ⟨guid, .number id⟩
  | ensureGuid _ => none

/-- The id that is returned; 0 stands for the nothing that `ensureGuid` returns. -/
def run : NameCall → NameIdMap → Nat × NameIdMap
  | idForString guid name, m => m.idForString guid name
  | idForNumeric guid id, m => m.idForNumeric guid id
  | ensureGuid guid, m => (0, m.ensureGuid guid)

theorem run_of_named {c : NameCall} {n : Named} (h : c.named = some n) (m : NameIdMap) :
    c.run m = m.idFor n.guid n.name ∧ c.guid = n.guid := by
  cases c with
  | idForString guid name => cases h; exact ⟨rfl, rfl⟩
  | idForNumeric guid id => cases h; exact ⟨rfl, rfl⟩
  | ensureGuid guid => cases h

theorem run_of_unnamed {c : NameCall} (h : c.named = none) (m : NameIdMap) :
    c.run m = (0, m.ensureGuid c.guid) := by
  cases c with
  | idForString guid name => cases h
  | idForNumeric guid id => cases h
  | ensureGuid guid => rfl

end NameCall

/-- One call after another: what each returns, and the map at the end. -/
def runCalls : List NameCall → NameIdMap → List Nat × NameIdMap
  | [], m => ([], m)
  | c :: calls, m =>
    let (id, m) := c.run m
    let (ids, m) := runCalls calls m
    (id :: ids, m)

theorem runCalls_append (calls calls' : List NameCall) (m : NameIdMap) :
    runCalls (calls ++ calls') m = ((runCalls calls m).1 ++ (runCalls calls' (runCalls calls m).2).1,
      (runCalls calls' (runCalls calls m).2).2) := by
  induction calls generalizing m with
  | nil => rfl
  | cons c calls ih => simp only [List.cons_append, runCalls, ih]

/-! ## The table -/

structure NameTable where
  guids : List Guid := []
  names : List Named := []
  deriving DecidableEq, Repr

namespace NameTable

def keys (t : NameTable) : List (Guid × Name) := t.names.map Named.key

/-- A name is entered once, while there is room. -/
def enter (n : Named) (t : NameTable) : NameTable :=
  if n.key ∈ t.keys ∨ kMaxNames ≤ t.names.length then t else { t with names := t.names ++ [n] }

def step (t : NameTable) (c : NameCall) : NameTable :=
  let seen : NameTable := { t with guids := see t.guids c.guid }
  match c.named with
  | none => seen
  | some n => seen.enter n

theorem step_unnamed {t : NameTable} {c : NameCall} (h : c.named = none) :
    t.step c = { t with guids := see t.guids c.guid } := by
  rw [step, h]

theorem step_named {t : NameTable} {c : NameCall} {n : Named} (h : c.named = some n) :
    t.step c = enter n { t with guids := see t.guids c.guid } := by
  rw [step, h]

/-- The id of a key; 0 when it is not in the table. -/
def idOf (t : NameTable) (key : Guid × Name) : Nat :=
  if key ∈ t.keys then kFirstNamedId + t.keys.idxOf key else 0

/-- The key has its id for good: it is in the table, or there is no room for it. -/
def Settled (t : NameTable) (key : Guid × Name) : Prop :=
  key ∈ t.keys ∨ kMaxNames ≤ t.names.length

/-- The table after some calls. -/
def after (calls : List NameCall) (t : NameTable) : NameTable := calls.foldl step t

/-- What holds of a table after any calls. -/
structure Ok (t : NameTable) : Prop where
  guids : GuidsOk t.guids
  seen : ∀ n ∈ t.names, Seen t.guids n.guid
  nodup : t.keys.Nodup
  small : t.names.length ≤ kMaxNames

theorem Ok.start : Ok {} := ⟨⟨List.nodup_nil, by simp, by simp⟩, by simp, List.nodup_nil,
  Nat.zero_le _⟩

theorem Ok.see {t : NameTable} (h : t.Ok) (g : Guid) :
    Ok { t with guids := see t.guids g } :=
  ⟨h.guids.see g, fun n hn => (h.seen n hn).mono (see_grows _ _), h.nodup, h.small⟩

theorem Ok.enter {t : NameTable} (h : t.Ok) {n : Named} (hn : Seen t.guids n.guid) :
    (t.enter n).Ok := by
  unfold NameTable.enter
  split
  · exact h
  · rename_i hnew
    obtain ⟨hfresh, hroom⟩ := not_or.1 hnew
    refine ⟨h.guids, ?_, ?_, ?_⟩
    · intro n' hn'
      rcases List.mem_append.1 hn' with hn' | hn'
      · exact h.seen n' hn'
      · rw [List.mem_singleton.1 hn']
        exact hn
    · show ((t.names ++ [n]).map Named.key).Nodup
      rw [List.map_append]
      refine List.nodup_append.2 ⟨h.nodup, by simp, ?_⟩
      rintro a ha b hb rfl
      exact hfresh (List.mem_singleton.1 hb ▸ ha)
    · rw [List.length_append, List.length_singleton]
      omega

theorem Ok.step {t : NameTable} (h : t.Ok) (c : NameCall) : (t.step c).Ok := by
  cases hnamed : c.named with
  | none =>
    rw [step_unnamed hnamed]
    exact h.see c.guid
  | some n =>
    rw [step_named hnamed]
    refine (h.see c.guid).enter ?_
    rw [← (NameCall.run_of_named hnamed {}).2]
    exact seen_see _ _

theorem Ok.after {t : NameTable} (h : t.Ok) (calls : List NameCall) : (t.after calls).Ok := by
  induction calls generalizing t with
  | nil => exact h
  | cons c calls ih => exact ih (h.step c)

end NameTable

/-! ## The map of a table -/

/-- Where the record of name `i` starts in the string stream. -/
def offsetOf (names : List Named) (i : Nat) : Nat :=
  ((names.take i).flatMap fun n => n.name.record).length

/-- The entry of name `i`. -/
def entryOf (t : NameTable) (i : Nat) (n : Named) : NameEntry where
  isString := n.name.isString
  numeric :=
    match n.name with
    | .string _ => offsetOf t.names i % 2 ^ 32
    | .number id => id.toNat
  guidIndex := wGuid t.guids n.guid
  propIndex := i
  hash := n.name.stored.hash

/-- The map holds the table. -/
structure Represents (t : NameTable) (m : NameIdMap) : Prop where
  guids : m.extraGuids = t.guids
  strings : m.stringStream = t.names.flatMap fun n => n.name.record
  count : m.entries.length = t.names.length
  entries : ∀ i n, t.names[i]? = some n → m.entries[i]? = some (entryOf t i n)
  lookup : ∀ w name id, m.lookup w name = some id ↔ ∃ i n, t.names[i]? = some n ∧
    wGuid t.guids n.guid = w ∧ n.name.fold = name.fold ∧ id = kFirstNamedId + i
  fits : ∀ n ∈ t.names, wGuid t.guids n.guid < 2 ^ 15

theorem Represents.start : Represents {} {} := by
  refine ⟨rfl, rfl, rfl, by simp, fun w name id => ?_, by simp⟩
  cases name <;> simp [NameIdMap.lookup]

theorem entryOf_see {t : NameTable} (h : t.Ok) (g : Guid) {i : Nat} {n : Named}
    (hn : t.names[i]? = some n) : entryOf { t with guids := see t.guids g } i n = entryOf t i n := by
  have hmono := wGuid_mono (h.seen n (List.mem_of_getElem? hn)) (see_grows t.guids g)
  simp only [entryOf, hmono]

theorem Represents.see {t : NameTable} {m : NameIdMap} (h : Represents t m) (ht : t.Ok)
    (g : Guid) : Represents { t with guids := see t.guids g }
      { m with extraGuids := see m.extraGuids g } := by
  have hmono (n : Named) (hn : n ∈ t.names) := wGuid_mono (ht.seen n hn) (see_grows t.guids g)
  refine ⟨congrArg (Pst.see · g) h.guids, h.strings, h.count, fun i n hn => ?_, fun w name id => ?_,
    fun n hn => ?_⟩
  · rw [entryOf_see ht g hn]
    exact h.entries i n hn
  · have hlookup : NameIdMap.lookup w { m with extraGuids := Pst.see m.extraGuids g } name =
        m.lookup w name := by
      cases name <;> rfl
    rw [hlookup, h.lookup]
    refine exists_congr fun i => exists_congr fun n => and_congr_right fun hn => ?_
    rw [hmono n (List.mem_of_getElem? hn)]
  · rw [hmono n hn]
    exact h.fits n hn

/-- The new key is found, and the others as before. -/
theorem NameIdMap.lookup_mint (w w' : Nat) (m : NameIdMap) (new name : Name) :
    (m.mint w new).lookup w' name =
      if w' = w ∧ new.fold = name.fold then some m.nextId else m.lookup w' name := by
  cases new with
  | string s =>
    cases name with
    | string s' =>
      simp only [lookup, mint, List.lookup_cons, Name.fold, Name.string.injEq]
      by_cases h : w' = w ∧ foldCase s = foldCase s'
      · rw [if_pos h, h.1, h.2, beq_self_eq_true]
      · rw [if_neg h, beq_eq_false_iff_ne.2 fun heq => h ⟨congrArg Prod.fst heq,
          (congrArg Prod.snd heq).symm⟩]
    | number id => simp [lookup, mint, Name.fold]
  | number id =>
    cases name with
    | string s => simp [lookup, mint, Name.fold]
    | number id' =>
      simp only [lookup, mint, List.lookup_cons, Name.fold, Name.number.injEq]
      by_cases h : w' = w ∧ id = id'
      · rw [if_pos h, h.1, h.2, beq_self_eq_true]
      · rw [if_neg h, beq_eq_false_iff_ne.2 fun heq => h ⟨congrArg Prod.fst heq,
          (congrArg Prod.snd heq).symm⟩]

theorem offsetOf_append {names : List Named} {i : Nat} (hi : i ≤ names.length) (n : Named) :
    offsetOf (names ++ [n]) i = offsetOf names i := by
  rw [offsetOf, List.take_append_of_le_length hi, offsetOf]

/-- A name that is not in the table gets an entry of its own. -/
theorem Represents.mint {t : NameTable} {m : NameIdMap} (h : Represents t m) (ht : t.Ok)
    {n : Named} (hfresh : n.key ∉ t.keys) (hroom : t.names.length < kMaxNames)
    (hfits : wGuid t.guids n.guid < 2 ^ 15) :
    Represents { t with names := t.names ++ [n] } (m.mint (wGuid t.guids n.guid) n.name) ∧
      m.nextId = kFirstNamedId + t.names.length := by
  have hmax : kMaxNames = 4096 := rfl
  have hfirst : kFirstNamedId = 0x8000 := rfl
  have hprop : m.nextPropIndex = t.names.length := by
    rw [NameIdMap.nextPropIndex, h.count]
    exact Nat.mod_eq_of_lt (by omega)
  have hid : m.nextId = kFirstNamedId + t.names.length := by
    rw [NameIdMap.nextId, hprop]
    exact Nat.mod_eq_of_lt (by omega)
  have hoffset : offsetOf (t.names ++ [n]) t.names.length = m.stringStream.length := by
    rw [offsetOf, List.take_left' rfl, h.strings]
  have hdvd : 4 ∣ m.stringStream.length := by
    rw [h.strings]
    exact dvd_records t.names
  have hentries : (m.mint (wGuid t.guids n.guid) n.name).entries =
      m.entries ++ [entryOf { t with names := t.names ++ [n] } t.names.length n] := by
    obtain ⟨guid, name⟩ := n
    cases name with
    | string s => simp only [NameIdMap.mint, entryOf, hoffset, hprop]; rfl
    | number id => simp only [NameIdMap.mint, entryOf, hprop]; rfl
  have hstrings : (m.mint (wGuid t.guids n.guid) n.name).stringStream =
      m.stringStream ++ n.name.record := by
    obtain ⟨guid, name⟩ := n
    cases name with
    | string s =>
      simp only [NameIdMap.mint, List.append_assoc]
      exact padToFour_append hdvd
    | number id => exact (List.append_nil _).symm
  have hguids : (m.mint (wGuid t.guids n.guid) n.name).extraGuids = m.extraGuids := by
    obtain ⟨guid, name⟩ := n
    cases name <;> rfl
  refine ⟨⟨hguids.trans h.guids, ?_, ?_, fun i n' hn' => ?_, fun w name id => ?_, ?_⟩, hid⟩
  · rw [hstrings, h.strings, List.flatMap_append, List.flatMap_singleton]
  · rw [hentries, List.length_append, List.length_append, h.count]
    rfl
  · rw [hentries, getElem?_concat, h.count]
    rcases getElem?_concat.1 hn' with hn' | ⟨rfl, rfl⟩
    · left
      rw [h.entries i n' hn']
      have hi := (List.getElem?_eq_some_iff.1 hn').1
      simp only [entryOf, offsetOf_append hi.le]
    · exact .inr ⟨rfl, rfl⟩
  · rw [NameIdMap.lookup_mint, hid]
    by_cases hnew : w = wGuid t.guids n.guid ∧ n.name.fold = name.fold
    · rw [if_pos hnew]
      constructor
      · rintro ⟨rfl⟩
        exact ⟨_, n, getElem?_concat.2 (.inr ⟨rfl, rfl⟩), hnew.1.symm, hnew.2, rfl⟩
      · rintro ⟨i, n', hn', hw, hname, rfl⟩
        rcases getElem?_concat.1 hn' with hn' | ⟨rfl, -⟩
        · have hmem := List.mem_of_getElem? hn'
          have hguid := wGuid_inj (ht.seen n' hmem) (hw.trans hnew.1)
          refine absurd (List.mem_map.2 ⟨n', hmem, ?_⟩) hfresh
          rw [Named.key, Named.key, hguid, hname, hnew.2]
        · rfl
    · rw [if_neg hnew, h.lookup]
      constructor
      · rintro ⟨i, n', hn', hrest⟩
        exact ⟨i, n', getElem?_concat.2 (.inl hn'), hrest⟩
      · rintro ⟨i, n', hn', hw, hname, hi⟩
        rcases getElem?_concat.1 hn' with hn' | ⟨-, rfl⟩
        · exact ⟨i, n', hn', hw, hname, hi⟩
        · exact absurd ⟨hw.symm, hname⟩ hnew
  · intro n' hn'
    rcases List.mem_append.1 hn' with hn' | hn'
    · exact h.fits n' hn'
    · rw [List.mem_singleton.1 hn']
      exact hfits

/-! ## Safe calls -/

/-- The number of the GUID fits its field where the name is entered, and stands for no other GUID
where there is no room for it. -/
def Fits (t : NameTable) (n : Named) : Prop :=
  n.key ∈ t.keys ∨
    t.names.length < kMaxNames ∧ wGuid t.guids n.guid < 2 ^ 15 ∨
    kMaxNames ≤ t.names.length ∧ ∀ n' ∈ t.names, n'.name.fold = n.name.fold →
      wGuid t.guids n'.guid ≠ wGuid t.guids n.guid % 2 ^ 16

/-- What the call asks an id for fits, once its GUID has a number. -/
def Safe (t : NameTable) (c : NameCall) : Prop :=
  ∀ n, c.named = some n → Fits { t with guids := see t.guids n.guid } n

/-- Every call is safe when its turn comes. -/
def SafeFrom (t : NameTable) : List NameCall → Prop
  | [] => True
  | c :: calls => Safe t c ∧ SafeFrom (t.step c) calls

namespace NameTable

theorem idOf_name {t : NameTable} (ht : t.Ok) {i : Nat} {n : Named} (hn : t.names[i]? = some n) :
    t.idOf n.key = kFirstNamedId + i := by
  obtain ⟨hi, hget⟩ := List.getElem?_eq_some_iff.1 hn
  have hlt : i < t.keys.length := (List.length_map _).symm ▸ hi
  have hkey : t.keys[i] = n.key := by
    rw [← hget]
    exact List.getElem_map _
  rw [idOf, if_pos (hkey ▸ List.getElem_mem hlt), ← hkey, ht.nodup.idxOf_getElem]

theorem enter_settled {t : NameTable} {n : Named} (h : t.Settled n.key) : t.enter n = t := if_pos h

theorem enter_unsettled {t : NameTable} {n : Named} (h : ¬ t.Settled n.key) :
    t.enter n = { t with names := t.names ++ [n] } := if_neg h

end NameTable

/-- What the map returns for a name whose GUID has its number. -/
theorem Represents.idUnder {t : NameTable} {m : NameIdMap} (h : Represents t m) (ht : t.Ok)
    {n : Named} (hseen : Seen t.guids n.guid) (hsafe : Fits t n) :
    Represents (t.enter n) (m.idUnder (wGuid t.guids n.guid % 2 ^ 16) n.name).2 ∧
      (m.idUnder (wGuid t.guids n.guid % 2 ^ 16) n.name).1 = (t.enter n).idOf n.key := by
  unfold NameIdMap.idUnder
  by_cases hold : n.key ∈ t.keys
  · obtain ⟨n', hmem, hkey⟩ := List.mem_map.1 hold
    obtain ⟨i, hn'⟩ := List.mem_iff_getElem?.1 hmem
    obtain ⟨hguid, hname⟩ := Prod.mk.inj hkey
    have hfits := h.fits n' hmem
    have hfound : m.lookup (wGuid t.guids n.guid % 2 ^ 16) n.name = some (kFirstNamedId + i) :=
      (h.lookup _ _ _).2 ⟨i, n', hn', by rw [← hguid, Nat.mod_eq_of_lt (by omega)], hname, rfl⟩
    rw [hfound, NameTable.enter_settled (.inl hold), ← hkey]
    exact ⟨h, (NameTable.idOf_name ht hn').symm⟩
  · have hnone : m.lookup (wGuid t.guids n.guid % 2 ^ 16) n.name = none := by
      rw [Option.eq_none_iff_forall_ne_some]
      intro id hid
      obtain ⟨i, n', hn', hw, hname, -⟩ := (h.lookup _ _ _).1 hid
      have hmem := List.mem_of_getElem? hn'
      obtain hold' | ⟨-, hfits⟩ | ⟨-, hapart⟩ := hsafe
      · exact hold hold'
      · rw [Nat.mod_eq_of_lt (by omega)] at hw
        refine hold (List.mem_map.2 ⟨n', hmem, ?_⟩)
        rw [Named.key, Named.key, wGuid_inj (ht.seen n' hmem) hw, hname]
      · exact hapart n' hmem hname hw
    rw [hnone]
    by_cases hfull : kMaxNames ≤ t.names.length
    · rw [h.count, if_pos hfull, NameTable.enter_settled (.inr hfull)]
      exact ⟨h, (if_neg hold).symm⟩
    · obtain ⟨-, hfits⟩ := (hsafe.resolve_left hold).resolve_right fun h => hfull h.1
      have hroom := Nat.not_le.1 hfull
      have hnew : ¬ t.Settled n.key := not_or.2 ⟨hold, hfull⟩
      obtain ⟨hrep, hid⟩ := h.mint ht hold hroom hfits
      rw [h.count, if_neg hfull, NameTable.enter_unsettled hnew, Nat.mod_eq_of_lt (by omega)]
      refine ⟨hrep, ?_⟩
      have hok := ht.enter hseen
      rw [NameTable.enter_unsettled hnew] at hok
      rw [hid, NameTable.idOf_name hok (getElem?_concat.2 (.inr ⟨rfl, rfl⟩))]

/-- A safe call keeps the map in step with the table, and returns what the table says. -/
theorem Represents.step {t : NameTable} {m : NameIdMap} (h : Represents t m) (ht : t.Ok)
    {c : NameCall} (hsafe : Safe t c) :
    Represents (t.step c) (c.run m).2 ∧
      ∀ n, c.named = some n → (c.run m).1 = (t.step c).idOf n.key := by
  cases hnamed : c.named with
  | none =>
    rw [NameTable.step_unnamed hnamed, NameCall.run_of_unnamed hnamed, NameIdMap.ensureGuid,
      NameIdMap.guidIndex_eq]
    exact ⟨h.see ht c.guid, fun n hn => nomatch hn⟩
  | some n =>
    obtain ⟨hrun, hguid⟩ := NameCall.run_of_named hnamed m
    rw [NameTable.step_named hnamed, hrun, hguid, NameIdMap.idFor, NameIdMap.guidIndex_eq, h.guids]
    have hrep := h.see ht n.guid
    rw [h.guids] at hrep
    obtain ⟨hrep', hid⟩ := hrep.idUnder (ht.see n.guid) (seen_see _ _) (hsafe n hnamed)
    refine ⟨hrep', fun n' hn' => ?_⟩
    cases hn'
    exact hid

/-! ## What stays -/

namespace NameTable

/-- What the call is answered once it has been made. -/
def answer (t : NameTable) (c : NameCall) : Nat :=
  match c.named with
  | none => 0
  | some n => t.idOf n.key

theorem idOf_ne_zero {t : NameTable} {key : Guid × Name} : t.idOf key ≠ 0 ↔ key ∈ t.keys := by
  have hfirst : kFirstNamedId = 0x8000 := rfl
  unfold idOf
  split
  · rename_i h
    exact iff_of_true (by omega) h
  · rename_i h
    exact iff_of_false (fun h' => h' rfl) h

/-- What a call does to the names. -/
theorem step_names (t : NameTable) (c : NameCall) :
    (t.step c).names = t.names ∧ (∀ n, c.named = some n → t.Settled n.key) ∨
      ∃ n, c.named = some n ∧ t.names.length < kMaxNames ∧ (t.step c).names = t.names ++ [n] := by
  cases hnamed : c.named with
  | none =>
    rw [step_unnamed hnamed]
    exact .inl ⟨rfl, fun n hn => nomatch hn⟩
  | some n =>
    rw [step_named hnamed]
    by_cases hset : t.Settled n.key
    · refine .inl ⟨?_, fun n' hn' => Option.some.inj hn' ▸ hset⟩
      rw [enter_settled]
      exact hset
    · refine .inr ⟨n, rfl, Nat.not_le.1 (not_or.1 hset).2, ?_⟩
      rw [enter_unsettled]
      exact hset

theorem keys_of_names {t t' : NameTable} {n : Named} (h : t'.names = t.names ++ [n]) :
    t'.keys = t.keys ++ [n.key] := by
  rw [keys, h, List.map_append]
  rfl

theorem Settled.step {t : NameTable} {key : Guid × Name} (h : t.Settled key) (c : NameCall) :
    (t.step c).Settled key ∧ (t.step c).idOf key = t.idOf key := by
  obtain ⟨hsame, -⟩ | ⟨n, -, hroom, hnames⟩ := t.step_names c
  · simp only [Settled, idOf, keys, hsame]
    exact ⟨h, rfl⟩
  · have hkey : key ∈ t.keys := h.resolve_right fun hfull => Nat.not_le.2 hroom hfull
    have hkey' : key ∈ (t.step c).keys := by
      rw [keys_of_names hnames]
      exact List.mem_append_left _ hkey
    refine ⟨.inl hkey', ?_⟩
    rw [idOf, idOf, if_pos hkey', if_pos hkey, keys_of_names hnames,
      List.idxOf_append_of_mem hkey]

theorem settled_step {c : NameCall} {n : Named} (hn : c.named = some n) (t : NameTable) :
    (t.step c).Settled n.key := by
  obtain ⟨-, hset⟩ | ⟨n', hn', hroom, hnames⟩ := t.step_names c
  · exact ((hset n hn).step c).1
  · obtain rfl := Option.some.inj (hn'.symm.trans hn)
    refine .inl ?_
    rw [keys_of_names hnames]
    exact List.mem_append_right _ List.mem_cons_self

theorem Settled.after {t : NameTable} {key : Guid × Name} (h : t.Settled key)
    (calls : List NameCall) : (t.after calls).idOf key = t.idOf key := by
  induction calls generalizing t with
  | nil => rfl
  | cons c calls ih =>
    obtain ⟨hset, hid⟩ := h.step c
    exact (ih hset).trans hid

theorem after_append (t : NameTable) (calls calls' : List NameCall) :
    t.after (calls ++ calls') = (t.after calls).after calls' := List.foldl_append

theorem step_guids (t : NameTable) (c : NameCall) : (t.step c).guids = see t.guids c.guid := by
  cases hn : c.named with
  | none => rw [step_unnamed hn]
  | some n =>
    rw [step_named hn]
    unfold enter
    split <;> rfl

theorem guids_after (t : NameTable) (calls : List NameCall) : t.guids <+: (t.after calls).guids := by
  induction calls generalizing t with
  | nil => exact List.prefix_rfl
  | cons c calls ih =>
    have hstep := see_grows t.guids c.guid
    rw [← step_guids] at hstep
    exact hstep.trans (ih (t.step c))

/-- Every name in the table was asked for. -/
theorem names_after {t : NameTable} {calls : List NameCall} {n : Named}
    (hn : n ∈ (t.after calls).names) : n ∈ t.names ∨ n ∈ calls.filterMap NameCall.named := by
  induction calls generalizing t with
  | nil => exact .inl hn
  | cons c calls ih =>
    have htail (h : n ∈ calls.filterMap NameCall.named) :
        n ∈ (c :: calls).filterMap NameCall.named := by
      obtain ⟨c', hmem, hc'⟩ := List.mem_filterMap.1 h
      exact List.mem_filterMap.2 ⟨c', List.mem_cons_of_mem _ hmem, hc'⟩
    rcases ih hn with hn | hn
    · obtain ⟨hsame, -⟩ | ⟨n', hn', -, hnames⟩ := t.step_names c
      · exact .inl (hsame ▸ hn)
      · rw [hnames] at hn
        rcases List.mem_append.1 hn with hn | hn
        · exact .inl hn
        · rw [List.mem_singleton.1 hn]
          exact .inr (List.mem_filterMap.2 ⟨c, List.mem_cons_self, hn'⟩)
    · exact .inr (htail hn)

/-- The table keeps the first of the names with one key. -/
theorem find_after {t : NameTable} {key : Guid × Name} {calls : List NameCall}
    (hkey : key ∈ (t.after calls).keys) :
    (t.after calls).names.find? (fun n => n.key = key) =
      (t.names ++ calls.filterMap NameCall.named).find? fun n => n.key = key := by
  induction calls generalizing t with
  | nil =>
    rw [List.filterMap_nil, List.append_nil]
    rfl
  | cons c calls ih =>
    refine (ih hkey).trans ?_
    obtain ⟨hsame, hset⟩ | ⟨n, hn, -, hnames⟩ := t.step_names c
    · rw [hsame]
      cases hn : c.named with
      | none => rw [List.filterMap_cons_none hn]
      | some n =>
        rw [List.filterMap_cons_some hn, List.find?_append, List.find?_append]
        by_cases heq : n.key = key
        · -- the name was not entered, so the key is in the table already
          have hset' : t.Settled key := heq ▸ hset n hn
          have hold : key ∈ t.keys := by
            rw [← idOf_ne_zero, ← hset'.after (c :: calls)]
            exact idOf_ne_zero.2 hkey
          obtain ⟨n', hmem, hkey'⟩ := List.mem_map.1 hold
          have hfound : (t.names.find? fun n => n.key = key).isSome :=
            List.find?_isSome.2 ⟨n', hmem, decide_eq_true hkey'⟩
          rw [Option.or_of_isSome hfound, Option.or_of_isSome hfound]
        · rw [List.find?_cons_of_neg (by simpa using heq)]
    · rw [hnames, List.filterMap_cons_some hn, List.append_assoc]
      rfl

end NameTable

theorem wGuid_le {guids : List Guid} {g : Guid} (h : Seen guids g) :
    wGuid guids g ≤ 2 + guids.length := by
  unfold wGuid
  by_cases hmapi : g = kPsMapi
  · rw [if_pos hmapi]
    omega
  by_cases hstrings : g = kPsPublicStrings
  · rw [if_neg hmapi, if_pos hstrings]
    omega
  have hlt := List.idxOf_lt_length_iff.2 ((h.resolve_left hmapi).resolve_left hstrings)
  rw [if_neg hmapi, if_neg hstrings]
  omega

/-- Calls are safe as long as there are not too many GUIDs. -/
theorem safe_of_few {t : NameTable} (ht : t.Ok) {calls : List NameCall}
    (h : (t.after calls).guids.length + 2 < 2 ^ 15) : SafeFrom t calls := by
  induction calls generalizing t with
  | nil => trivial
  | cons c calls ih =>
    refine ⟨fun n hn => ?_, ih (ht.step c) h⟩
    have hkept := (t.step c).guids_after calls
    rw [NameTable.step_guids, (NameCall.run_of_named hn {}).2] at hkept
    have hlen := hkept.length_le
    have hseen := seen_see t.guids n.guid
    have hle := wGuid_le hseen
    have hfits : wGuid (see t.guids n.guid) n.guid < 2 ^ 15 := by
      have hafter : (NameTable.after calls (t.step c)).guids.length + 2 < 2 ^ 15 := h
      omega
    by_cases hold : n.key ∈ t.keys
    · exact .inl hold
    by_cases hroom : t.names.length < kMaxNames
    · exact .inr (.inl ⟨hroom, hfits⟩)
    · refine .inr (.inr ⟨Nat.not_lt.1 hroom, fun n' hmem hname hw => hold ?_⟩)
      rw [Nat.mod_eq_of_lt (hfits.trans (by decide))] at hw
      have hguid := wGuid_inj ((ht.see n.guid).seen n' hmem) hw
      exact List.mem_map.2 ⟨n', hmem, by rw [Named.key, Named.key, hguid, hname]⟩

/-- Safe calls keep the map in step with the table, and the answers stay true to the end. -/
theorem runCalls_represents {t : NameTable} {m : NameIdMap} (h : Represents t m) (ht : t.Ok)
    {calls : List NameCall} (hsafe : SafeFrom t calls) :
    Represents (t.after calls) (runCalls calls m).2 ∧
      (runCalls calls m).1 = calls.map (t.after calls).answer := by
  induction calls generalizing t m with
  | nil => exact ⟨h, rfl⟩
  | cons c calls ih =>
    obtain ⟨hrep, hid⟩ := h.step ht hsafe.1
    obtain ⟨hrep', hids⟩ := ih hrep (ht.step c) hsafe.2
    have hhead : (c.run m).1 = (t.after (c :: calls)).answer c := by
      unfold NameTable.answer
      cases hn : c.named with
      | none => rw [NameCall.run_of_unnamed hn]
      | some n =>
        rw [hid n hn]
        exact ((NameTable.settled_step hn t).after calls).symm
    exact ⟨hrep', List.cons_eq_cons.2 ⟨hhead, hids⟩⟩

end Pst
end Imap2Pst
