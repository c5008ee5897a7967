import Imap2Pst.Pst.Bth
import Imap2Pst.Pst.Node
import Imap2Pst.Pst.Tags
import Imap2Pst.Pst.Values

/-!
# Pst.Property

The property context of `pst/ltp.cpp`: a B-tree on a heap, keyed by property id, whose records hold
a value inline or the HNID of it.

* `PropertyContext` — the properties of one object, no two with the same id; the setters.
* `PropertyContext.serialize` — the heap of the context; large values go to subnodes.
* `readProperty` — the reader.
* `serialize_reads` — every property reads back with its type and value, and no other does.
-/

namespace Imap2Pst
namespace Pst

open CxxStd

/-- A value: inline in its record, still to be stored, or in a subnode already. -/
inductive PcValue where
  | inline (v : Nat)
  | bytes (b : Bytes)
  | spilled (nid : Nat)
  deriving DecidableEq, Repr

/-- The loop of `put`. -/
def putValue (tag : Nat) (v : PcValue) : List (Nat × PcValue) → List (Nat × PcValue)
  | [] => [(tag, v)]
  | existing :: rest =>
    if tagId existing.1 = tagId tag then (tag, v) :: rest else existing :: putValue tag v rest

/-- The value with property id `id`, and the tag it was put under. -/
def findValue (id : Nat) (values : List (Nat × PcValue)) : Option (Nat × PcValue) :=
  values.find? fun e => tagId e.1 = id

theorem mem_tagIds_putValue {tag : Nat} {v : PcValue} {values : List (Nat × PcValue)} {id : Nat} :
    id ∈ (putValue tag v values).map (fun e => tagId e.1) ↔
      id = tagId tag ∨ id ∈ values.map fun e => tagId e.1 := by
  induction values with
  | nil => simp [putValue]
  | cons existing rest ih =>
    unfold putValue
    split
    · rename_i h
      simp only [List.map_cons, List.mem_cons, h]
      tauto
    · simp only [List.map_cons, List.mem_cons, ih]
      tauto

theorem nodup_putValue {tag : Nat} {v : PcValue} {values : List (Nat × PcValue)}
    (h : (values.map fun e => tagId e.1).Nodup) :
    ((putValue tag v values).map fun e => tagId e.1).Nodup := by
  induction values with
  | nil => simp [putValue]
  | cons existing rest ih =>
    rw [List.map_cons, List.nodup_cons] at h
    unfold putValue
    split
    · rename_i heq
      rw [List.map_cons, List.nodup_cons]
      exact ⟨heq ▸ h.1, h.2⟩
    · rename_i hne
      rw [List.map_cons, List.nodup_cons, mem_tagIds_putValue]
      exact ⟨fun hmem => hmem.elim hne h.1, ih h.2⟩

theorem findValue_putValue {tag : Nat} {v : PcValue} (values : List (Nat × PcValue)) (id : Nat) :
    findValue id (putValue tag v values) =
      if id = tagId tag then some (tag, v) else findValue id values := by
  induction values with
  | nil =>
    unfold putValue findValue
    rw [List.find?_cons]
    split
    · rename_i h
      rw [if_pos (by simpa using (of_decide_eq_true h).symm)]
    · rename_i h
      rw [if_neg fun heq => of_decide_eq_false h heq.symm]
  | cons existing rest ih =>
    unfold putValue
    unfold findValue at ih ⊢
    by_cases hex : tagId existing.1 = tagId tag
    · rw [if_pos hex, List.find?_cons, List.find?_cons, hex]
      by_cases hid : id = tagId tag
      · rw [if_pos hid, decide_eq_true hid.symm]
      · rw [if_neg hid, decide_eq_false fun h => hid h.symm]
    · rw [if_neg hex, List.find?_cons, List.find?_cons, ih]
      by_cases hid : tagId existing.1 = id
      · rw [decide_eq_true hid]
        simp only
        rw [if_neg (hid ▸ hex)]
      · rw [decide_eq_false hid]

/-- The values in the order they were first put; no two have the same property id. -/
structure PropertyContext where
  values : List (Nat × PcValue) := []
  distinct : (values.map fun e => tagId e.1).Nodup := by exact List.nodup_nil

namespace PropertyContext

/-- A value put again replaces the one with its id. -/
def put (tag : Nat) (v : PcValue) (pc : PropertyContext) : PropertyContext where
  values := putValue tag v pc.values
  distinct := nodup_putValue pc.distinct

def setInt16 (tag v : Nat) : PropertyContext → PropertyContext := put tag (.inline v)
def setInt32 (tag v : Nat) : PropertyContext → PropertyContext := put tag (.inline v)
def setBool (tag : Nat) (v : Bool) : PropertyContext → PropertyContext :=
  put tag (.inline (if v then 1 else 0))
def setSpilledValue (tag nid : Nat) : PropertyContext → PropertyContext := put tag (.spilled nid)
def setInt64 (tag v : Nat) : PropertyContext → PropertyContext := put tag (.bytes (le 8 v))
def setTime (tag filetime : Nat) : PropertyContext → PropertyContext := setInt64 tag filetime

def setString (tag : Nat) (utf8 : Bytes) : PropertyContext → PropertyContext :=
  put tag (.bytes (stringBytes tag utf8))
def setBinary (tag : Nat) (data : Bytes) : PropertyContext → PropertyContext := put tag (.bytes data)

/-- The offsets of a string array, each measured from the start of the buffer. -/
def arrayOffsets : Nat → List Bytes → List Nat
  | _, [] => []
  | offset, item :: items => offset :: arrayOffsets ((offset + item.length) % 2 ^ 32) items

/-- A count, an offset for each item, then the items. -/
def stringArray (items : List Bytes) : Bytes :=
  let encoded := items.map utf8ToUtf16le
  le 4 encoded.length ++
    (arrayOffsets ((4 + 4 * encoded.length) % 2 ^ 32) encoded).flatMap (le 4) ++ encoded.flatten

def setStringArray (tag : Nat) (items : List Bytes) : PropertyContext → PropertyContext :=
  put tag (.bytes (stringArray items))
/-- A subnode and the size of the object in it. -/
def setObject (tag nid size : Nat) : PropertyContext → PropertyContext :=
  put tag (.bytes (le 4 nid ++ le 4 size))

/-- The value with this property id, and the tag it was put under. -/
def find (id : Nat) (pc : PropertyContext) : Option (Nat × PcValue) := findValue id pc.values

theorem find_put (tag : Nat) (v : PcValue) (pc : PropertyContext) (id : Nat) :
    (pc.put tag v).find id = if id = tagId tag then some (tag, v) else pc.find id :=
  findValue_putValue pc.values id

/-! ## Serialization -/

def place : PcValue → Building Nat
  | .inline v => pure v
  | .spilled nid => pure nid
  -- an empty value gets an allocation too: HNID 0 would say that it is absent
  | .bytes b => storeBytes b

/-- The record of a property. -/
def record (tag hnid : Nat) : BthRecord := ⟨le 2 (tagId tag), le 2 (tagType tag) ++ le 4 hnid⟩

section

variable (std : StdSort)

def build (pc : PropertyContext) : Building Unit := do
  let records ← each
    (fun (tag, v) => do
      let hnid ← place v
      pure (record tag hnid))
    pc.values
  let root ← onLocal (buildBth std 2 6 records)
  modify fun (ws, hn) => (ws, hn.setUserRoot root)

/-- The heap of the context. -/
def serialize (pc : PropertyContext) : Streaming SubnodeAllocator Bytes := do
  let (_, hn) ← withLocal ({ clientSig := kHnSigPC } : HeapNode) (pc.build std)
  return hn.serialize

end

end PropertyContext

/-! ## The reader -/

inductive PropValue where
  | inline (v : Nat)
  | octets (b : Bytes)
  deriving DecidableEq, Repr

/-- The type and the value of the property with this id. -/
def readProperty (store : Store) (n : NodeView) (id : Nat) : Option (Nat × PropValue) := do
  let root ← heapUserRoot n.blocks
  let record ← bthLookup (heapItem n.blocks) root id
  let type := fromLe (slice record 0 2)
  let hnid := fromLe (slice record 2 4)
  if propIsInline type then pure (type, .inline hnid)
  else do
    let b ← n.value store hnid
    pure (type, .octets b)

/-! ## What is written reads back -/

section

variable (w : NdbWriter) (blocks : List HeapBlock) (entries : List SubnodeEntry)

/-- The HNID in the record of a value. -/
def HnidOf : PcValue → Nat → Prop
  | .inline v, hnid => hnid = v
  | .spilled nid, hnid => hnid = nid
  | .bytes b, hnid =>
    hnid < 2 ^ 32 ∧ ∃ leaves, Stored w blocks entries hnid leaves ∧ leaves.flatten = b

/-- What a reader is to find for a value. -/
inductive Means : PcValue → PropValue → Prop
  | inline (v : Nat) : Means (.inline v) (.inline (v % 2 ^ 32))
  | bytes (b : Bytes) : Means (.bytes b) (.octets b)
  | spilled {nid : Nat} {leaves : List Bytes} (hlt : nid < 2 ^ 32)
      (hstored : Stored w blocks entries nid leaves) : Means (.spilled nid) (.octets leaves.flatten)

end

/-- Small values, and only they, are inline. -/
def Typed (e : Nat × PcValue) : Prop :=
  propIsInline (tagType e.1) = true ↔ ∃ v, e.2 = .inline v

theorem HnidOf.mono {w w' : NdbWriter} {blocks blocks' : List HeapBlock}
    {entries entries' : List SubnodeEntry} {v : PcValue} {hnid : Nat}
    (hp : HnidOf w blocks entries v hnid) (hw : Grows w w')
    (hh : ∀ hid item, HasItem blocks hid item → HasItem blocks' hid item)
    (hsub : entries ⊆ entries') : HnidOf w' blocks' entries' v hnid := by
  cases v with
  | inline v => exact hp
  | spilled nid => exact hp
  | bytes b =>
    obtain ⟨hlt, leaves, hstored, hflat⟩ := hp
    exact ⟨hlt, leaves, hstored.mono hw hh hsub, hflat⟩

/-- The heap of a node holds the tree of this context. -/
structure PcAt (w : NdbWriter) (h : HeapNode) (entries : List SubnodeEntry)
    (pc : PropertyContext) : Prop where
  present : ∀ e ∈ pc.values, ∃ hnid, HnidOf w h.blocks entries e.2 hnid ∧ ∀ item,
    HeapNode.Finds item h → bthLookup item h.userRoot (tagId e.1) =
      some (le 2 (tagType e.1) ++ le 4 hnid)
  absent : ∀ id, pc.find id = none → ∀ item, HeapNode.Finds item h →
    bthLookup item h.userRoot id = none

theorem PcAt.mono {w w' : NdbWriter} {h : HeapNode} {entries entries' : List SubnodeEntry}
    {pc : PropertyContext} (hp : PcAt w h entries pc) (hw : Grows w w')
    (hsub : entries ⊆ entries') : PcAt w' h entries' pc := by
  refine ⟨fun e he => ?_, hp.absent⟩
  obtain ⟨hnid, hof, hlookup⟩ := hp.present e he
  exact ⟨hnid, hof.mono hw (fun _ _ hi => hi) hsub, hlookup⟩

namespace PropertyContext

theorem place_spec {v : PcValue} {hnid : Nat} {t t' : (NdbWriter × SubnodeAllocator) × HeapNode}
    (hrun : place v t = .ok hnid t') (hs : Sound t.1.1) (hsub : t.1.2.Ok) (hok : t.2.Ok) :
    Extends t t' ∧ HnidOf t'.1.1 t'.2.blocks t'.1.2.entries v hnid := by
  cases v with
  | inline v =>
    obtain ⟨rfl, rfl⟩ := pure_eq_ok.1 hrun
    exact ⟨.refl hs hsub hok, rfl⟩
  | spilled nid =>
    obtain ⟨rfl, rfl⟩ := pure_eq_ok.1 hrun
    exact ⟨.refl hs hsub hok, rfl⟩
  | bytes b =>
    obtain ⟨hext, _, hlt, hstored⟩ := storeBytes_spec hrun hs hsub hok
    exact ⟨hext, hlt, hstored⟩

/-- The records of the values, each with the HNID of its value. -/
theorem records_spec {values : List (Nat × PcValue)} {records : List BthRecord}
    {t t' : (NdbWriter × SubnodeAllocator) × HeapNode}
    (hrun : each
      (fun (e : Nat × PcValue) => do
        let hnid ← place e.2
        pure (record e.1 hnid)) values t = .ok records t')
    (hs : Sound t.1.1) (hsub : t.1.2.Ok) (hok : t.2.Ok) :
    Extends t t' ∧ ∃ ps : List ((Nat × PcValue) × Nat), values = ps.map Prod.fst ∧
      records = ps.map (fun p => record p.1.1 p.2) ∧
      ∀ p ∈ ps, HnidOf t'.1.1 t'.2.blocks t'.1.2.entries p.1.2 p.2 := by
  refine each_rule
    (I := fun done results t' => Extends t t' ∧ ∃ ps : List ((Nat × PcValue) × Nat),
      done = ps.map Prod.fst ∧ results = ps.map (fun p => record p.1.1 p.2) ∧
      ∀ p ∈ ps, HnidOf t'.1.1 t'.2.blocks t'.1.2.entries p.1.2 p.2) ?_
    ⟨.refl hs hsub hok, [], by simp⟩ hrun
  rintro done results e t₁ r t₂ _ ⟨hext, ps, rfl, rfl, hps⟩ hone
  obtain ⟨hnid, t₃, hplace, hpure⟩ := bind_eq_ok.1 hone
  obtain ⟨rfl, rfl⟩ := pure_eq_ok.1 hpure
  obtain ⟨hext', hof⟩ := place_spec hplace hext.grows.sound hext.ok hext.heap.ok
  refine ⟨hext.trans hext', ps ++ [(e, hnid)], by simp, by simp, ?_⟩
  intro p hp
  rcases List.mem_append.1 hp with hp | hp
  · exact (hps p hp).mono hext'.grows hext'.heap.items hext'.entries
  · rw [List.mem_singleton.1 hp]
    exact hof

theorem record_num (tag hnid : Nat) : (record tag hnid).num = tagId tag :=
  fromLe_le_of_lt (tagId_lt tag)

/-- The values are placed, then the tree is built over their records. -/
theorem build_eq_ok {std : StdSort} {pc : PropertyContext}
    {t t' : (NdbWriter × SubnodeAllocator) × HeapNode} (hrun : pc.build std t = .ok () t') :
    ∃ records h₂ root h₃, each
        (fun (e : Nat × PcValue) => do
          let hnid ← place e.2
          pure (record e.1 hnid)) pc.values t = .ok records (t'.1, h₂) ∧
      buildBth std 2 6 records h₂ = .ok root h₃ ∧ t'.2 = h₃.setUserRoot root := by
  unfold build at hrun
  obtain ⟨records, ⟨ws₂, h₂⟩, hrecords, hrun⟩ := bind_eq_ok.1 hrun
  obtain ⟨root, ⟨ws, h₃⟩, hbth, hrun⟩ := bind_eq_ok.1 hrun
  obtain ⟨htree, rfl⟩ := onLocal_eq_ok.1 hbth
  cases modify_eq_ok.1 hrun
  exact ⟨records, h₂, root, h₃, hrecords, htree, rfl⟩

/-- The tree over the records of a context. -/
theorem tree_spec {std : StdSort} {pc : PropertyContext} {ps : List ((Nat × PcValue) × Nat)}
    (hvalues : pc.values = ps.map Prod.fst) {h h' : HeapNode} {root : Nat}
    (hrun : buildBth std 2 6 (ps.map fun p => record p.1.1 p.2) h = .ok root h') (hok : h.Ok) :
    h.Grows h' ∧ root < 2 ^ 32 ∧
      (∀ p ∈ ps, ∀ item, HeapNode.Finds item h' → bthLookup item root (tagId p.1.1) =
        some (le 2 (tagType p.1.1) ++ le 4 p.2)) ∧
      ∀ id, pc.find id = none → ∀ item, HeapNode.Finds item h' → bthLookup item root id = none := by
  have hfits : ∀ r ∈ ps.map (fun p => record p.1.1 p.2), r.Fits 2 6 := by
    intro r hr
    obtain ⟨p, _, rfl⟩ := List.mem_map.1 hr
    exact ⟨le_length 2 _, by simp [record]⟩
  have hnums : (ps.map (fun p => record p.1.1 p.2)).map BthRecord.num =
      pc.values.map fun e => tagId e.1 := by
    rw [hvalues, List.map_map, List.map_map]
    exact List.map_congr_left fun p _ => record_num _ _
  have hnodup := hnums.symm ▸ pc.distinct
  obtain ⟨hg, hroot, hlookup⟩ := buildBth_spec hrun hok (by decide) (by decide) hfits hnodup
  refine ⟨hg, hroot.2, fun p hp item hf => ?_, fun id hnone item hf => ?_⟩
  · have hfind := (find?_key_eq_some hnodup).2
      ⟨List.mem_map_of_mem hp, record_num p.1.1 p.2⟩
    rw [hlookup item hf (tagId p.1.1), hfind]
    rfl
  · refine (hlookup item hf id).trans ?_
    rw [Option.map_eq_none_iff, List.find?_eq_none]
    intro r hr
    have hmem : r.num ∈ pc.values.map fun e => tagId e.1 := hnums ▸ List.mem_map_of_mem hr
    obtain ⟨e, he, heq⟩ := List.mem_map.1 hmem
    have hne := List.find?_eq_none.1 hnone e he
    rw [← heq]
    exact hne

/-- What `build` leaves behind. -/
theorem build_spec {std : StdSort} {pc : PropertyContext}
    {t t' : (NdbWriter × SubnodeAllocator) × HeapNode} (hrun : pc.build std t = .ok () t')
    (hs : Sound t.1.1) (hsub : t.1.2.Ok) (hok : t.2.Ok) :
    t'.2.Ok ∧ t'.2.userRoot < 2 ^ 32 ∧ Grows t.1.1 t'.1.1 ∧ t.1.2.entries ⊆ t'.1.2.entries ∧
      t'.1.2.Ok ∧ PcAt t'.1.1 t'.2 t'.1.2.entries pc := by
  obtain ⟨records, h₂, root, h₃, hrecords, htree, hheap⟩ := build_eq_ok hrun
  obtain ⟨hext, ps, hvalues, rfl, hps⟩ := records_spec hrecords hs hsub hok
  obtain ⟨hg, hroot, hpresent, habsent⟩ := tree_spec hvalues htree hext.heap.ok
  rw [hheap]
  refine ⟨hg.ok.setUserRoot root, hroot, hext.grows, hext.entries, hext.ok, ?_, habsent⟩
  intro e he
  rw [hvalues] at he
  obtain ⟨p, hp, rfl⟩ := List.mem_map.1 he
  exact ⟨p.2, (hps p hp).mono (Grows.refl hext.grows.sound) hg.items (List.Subset.refl _),
    hpresent p hp⟩

theorem serialize_eq_ok {std : StdSort} {pc : PropertyContext} {heap : Bytes}
    {t t' : NdbWriter × SubnodeAllocator} (hrun : pc.serialize std t = .ok heap t') :
    ∃ h : HeapNode, pc.build std (t, { clientSig := kHnSigPC }) = .ok () (t', h) ∧
      heap = h.serialize := by
  unfold serialize at hrun
  obtain ⟨⟨_, h⟩, t₁, hlocal, hrun⟩ := bind_eq_ok.1 hrun
  obtain ⟨rfl, heq⟩ := pure_eq_ok.1 hrun
  cases heq
  exact ⟨h, withLocal_eq_ok.1 hlocal, rfl⟩

/-- The heap of a context, as `serialize` leaves it. -/
theorem serialize_spec {std : StdSort} {pc : PropertyContext} {heap : Bytes}
    {w w' : NdbWriter} {s s' : SubnodeAllocator}
    (hrun : pc.serialize std (w, s) = .ok heap (w', s')) (hs : Sound w) (hsub : s.Ok) :
    ∃ h : HeapNode, heap = h.serialize ∧ h.Ok ∧ h.userRoot < 2 ^ 32 ∧ Grows w w' ∧
      s.entries ⊆ s'.entries ∧ s'.Ok ∧ PcAt w' h s'.entries pc := by
  obtain ⟨h, hbuild, rfl⟩ := serialize_eq_ok hrun
  exact ⟨h, rfl, build_spec hbuild hs hsub (HeapNode.ok_new kHnSigPC)⟩

end PropertyContext

/-- In a node with this heap and these subnodes every property reads back with its type and value,
and no other property does. -/
theorem PcAt.reads_view {w : NdbWriter} {h : HeapNode} {entries : List SubnodeEntry}
    {pc : PropertyContext} (hp : PcAt w h entries pc) (hok : h.Ok) {n : NodeView}
    (hreads : NodeReads n h entries) {store : Store} (hc : Covers store w) :
    (∀ e ∈ pc.values, Typed e → ∀ v, Means w h.blocks entries e.2 v →
      readProperty store n (tagId e.1) = some (tagType e.1, v)) ∧
    ∀ id, pc.find id = none → readProperty store n id = none := by
  constructor
  · rintro ⟨tag, value⟩ he htyped v hv
    obtain ⟨hnid, hof, hlookup⟩ := hp.present _ he
    dsimp only at hof hlookup ⊢
    have htype := slice_of_split
      (show le 2 (tagType tag) ++ le 4 hnid = [] ++ (le 2 (tagType tag) ++ le 4 hnid) from rfl)
      (show ([] : Bytes).length = 0 from rfl)
    have hvalue := slice_of_split
      (show le 2 (tagType tag) ++ le 4 hnid = le 2 (tagType tag) ++ (le 4 hnid ++ []) by
        rw [List.append_nil]) (le_length 2 _)
    rw [le_length] at htype hvalue
    have htypeLt : tagType tag < 256 ^ 2 := tagType_lt tag
    have hinline : propIsInline (tagType tag) = true ↔ ∃ v, value = .inline v := htyped
    simp only [readProperty, hreads.root, hlookup _ hreads.finds, Option.bind_eq_bind,
      Option.bind_some, htype, hvalue, fromLe_le_of_lt htypeLt]
    cases hv with
    | inline v =>
      rw [if_pos (hinline.2 ⟨v, rfl⟩), fromLe_le, hof]
      rfl
    | bytes b =>
      obtain ⟨hlt, leaves, hstored, hflat⟩ := hof
      have hwide : ¬propIsInline (tagType tag) = true := fun hi => by
        obtain ⟨_, hv⟩ := hinline.1 hi
        cases hv
      have hlt' : hnid < 256 ^ 4 := hlt
      rw [if_neg hwide, fromLe_le_of_lt hlt', hstored.value hok hreads hc, hflat]
      rfl
    | spilled hlt hstored =>
      rename_i nid leaves
      have hwide : ¬propIsInline (tagType tag) = true := fun hi => by
        obtain ⟨_, hv⟩ := hinline.1 hi
        cases hv
      have hlt' : nid < 256 ^ 4 := hlt
      rw [if_neg hwide, hof, fromLe_le_of_lt hlt', hstored.value hok hreads hc]
      rfl
  · intro id hnone
    simp only [readProperty, hreads.root, hp.absent id hnone _ hreads.finds, Option.bind_eq_bind,
      Option.bind_some, Option.bind_none]

/-- Every property reads back with its type and value, and no other property does. -/
theorem PcAt.reads {w : NdbWriter} {data sub : Nat} {h : HeapNode} {entries : List SubnodeEntry}
    {pc : PropertyContext} (hp : PcAt w h entries pc) (hn : NodeAt w data sub h entries)
    {store : Store} (hc : Covers store w) : ∃ n, readNode store data sub = some n ∧
      NodeReads n h entries ∧
      (∀ e ∈ pc.values, Typed e → ∀ v, Means w h.blocks entries e.2 v →
        readProperty store n (tagId e.1) = some (tagType e.1, v)) ∧
      ∀ id, pc.find id = none → readProperty store n id = none := by
  obtain ⟨n, hread, hreads⟩ := hn.reads hc
  exact ⟨n, hread, hreads, hp.reads_view hn.ok hreads hc⟩

end Pst
end Imap2Pst
