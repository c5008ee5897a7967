import Imap2Pst.Pst.Room
import Imap2Pst.Pst.Setters
import Mathlib.Data.List.Forall2

/-!
# Pst.Placement

Where a property context puts its values, and what a reader of its heap and its subnodes finds.

* `HeapNode.allocated` — everything that was allocated on a heap.
* `Stowed`             — the loop of `serialize`: each value inline, on the heap or in a subnode.
* `RoundTrip`          — the reader's side; `property_context_round_trip`.
-/

namespace Imap2Pst
namespace Pst

open CxxStd

/-! ## The allocations of a heap -/

namespace HeapNode

/-- The allocations, block after block. -/
def allocated (h : HeapNode) : List Bytes := h.blocks.flatMap (·.items)

theorem alloc_allocated {h h' : HeapNode} {data : Bytes} {hid : Nat}
    (hrun : alloc data h = .ok hid h') :
    data.length ≤ maxAllocSize ∧ h'.allocated = h.allocated ++ [data] := by
  obtain ⟨hlen, _, rfl, _⟩ := alloc_eq_ok.1 hrun
  exact ⟨hlen, addAll_items h [data]⟩

/-- More was allocated, nothing of it too large. -/
def Appends (h h' : HeapNode) : Prop :=
  ∃ pages, h'.allocated = h.allocated ++ pages ∧ ∀ page ∈ pages, page.length ≤ maxAllocSize

instance : IsPreorder HeapNode Appends where
  refl h := ⟨[], (List.append_nil _).symm, fun _ hpage => (List.not_mem_nil hpage).elim⟩
  trans := by
    rintro h h' h'' ⟨pages, heq, hlen⟩ ⟨pages', heq', hlen'⟩
    refine ⟨pages ++ pages', by rw [heq', heq, List.append_assoc], ?_⟩
    intro page hpage
    exact (List.mem_append.1 hpage).elim (hlen page) (hlen' page)

theorem alloc_appends (data : Bytes) : Moves Appends (alloc data) := by
  intro h hid h' hrun
  obtain ⟨hlen, heq⟩ := alloc_allocated hrun
  refine ⟨[data], heq, fun page hpage => ?_⟩
  rw [List.mem_singleton.1 hpage]
  exact hlen

/-- A tree is built from allocations alone. -/
theorem buildBth_appends {std : StdSort} {cbKey cbEnt root : Nat} {records : List BthRecord}
    {h h' : HeapNode} (hrun : buildBth std cbKey cbEnt records h = .ok root h') : h.Appends h' :=
  buildBthInto_moves std alloc_appends cbKey cbEnt records h root h' hrun

end HeapNode

/-! ## Where the values go -/

namespace PcValue

/-- The octets of a value that an allocation can take. -/
def small : PcValue → Option Bytes
  | .bytes b => if b.length ≤ maxAllocSize then some b else none
  | _ => none

/-- The octets of a value that no allocation can take. -/
def large : PcValue → Option Bytes
  | .bytes b => if b.length ≤ maxAllocSize then none else some b
  | _ => none

end PcValue

/-- A subnode with this value. -/
structure SpilledAs (w : NdbWriter) (b : Bytes) (e : SubnodeEntry) : Prop where
  type : hnidIsHid e.nid = false
  fits : e.Fits
  tree : Tree w e.data (leavesOf b)

theorem SpilledAs.mono {w w' : NdbWriter} {b : Bytes} {e : SubnodeEntry} (h : SpilledAs w b e)
    (hg : Grows w w') : SpilledAs w' b e := ⟨h.type, h.fits, h.tree.mono hg⟩

/-- Where a value is, given its HNID and the subnodes added for the context. -/
inductive PlacedAt (w : NdbWriter) (blocks : List HeapBlock) (added : List SubnodeEntry) :
    PcValue → Nat → Prop
  | inline (v : Nat) : PlacedAt w blocks added (.inline v) v
  | spilled (nid : Nat) : PlacedAt w blocks added (.spilled nid) nid
  | heap {b : Bytes} {hid : Nat} (hlen : b.length ≤ maxAllocSize) (hitem : HasItem blocks hid b) :
      PlacedAt w blocks added (.bytes b) hid
  | subnode {b : Bytes} {e : SubnodeEntry} (hlen : maxAllocSize < b.length) (hmem : e ∈ added)
      (hspilled : SpilledAs w b e) : PlacedAt w blocks added (.bytes b) e.nid

theorem PlacedAt.mono {w w' : NdbWriter} {blocks blocks' : List HeapBlock}
    {added added' : List SubnodeEntry} {v : PcValue} {hnid : Nat}
    (hp : PlacedAt w blocks added v hnid) (hw : Grows w w')
    (hh : ∀ hid item, HasItem blocks hid item → HasItem blocks' hid item)
    (hsub : added ⊆ added') : PlacedAt w' blocks' added' v hnid := by
  cases hp with
  | inline => exact .inline _
  | spilled => exact .spilled _
  | heap hlen hitem => exact .heap hlen (hh _ _ hitem)
  | subnode hlen hmem hspilled => exact .subnode hlen (hsub hmem) (hspilled.mono hw)

/-- What placing these values does: every small one is an allocation, every large one a subnode. -/
structure Stowed (t t' : (NdbWriter × SubnodeAllocator) × HeapNode) (values : List PcValue)
    (hnids : List Nat) (added : List SubnodeEntry) : Prop where
  more : Extends t t'
  allocated : t'.2.allocated = t.2.allocated ++ values.filterMap PcValue.small
  entries : t'.1.2.entries = t.1.2.entries ++ added
  subnodes : List.Forall₂ (SpilledAs t'.1.1) (values.filterMap PcValue.large) added
  places : List.Forall₂ (PlacedAt t'.1.1 t'.2.blocks added) values hnids

section

variable {t t' t'' : (NdbWriter × SubnodeAllocator) × HeapNode}

theorem Stowed.nil (hs : Sound t.1.1) (hsub : t.1.2.Ok) (hok : t.2.Ok) : Stowed t t [] [] [] :=
  ⟨.refl hs hsub hok, (List.append_nil _).symm, (List.append_nil _).symm, .nil, .nil⟩

theorem Stowed.append {values values' : List PcValue} {hnids hnids' : List Nat}
    {added added' : List SubnodeEntry} (h : Stowed t t' values hnids added)
    (h' : Stowed t' t'' values' hnids' added') :
    Stowed t t'' (values ++ values') (hnids ++ hnids') (added ++ added') := by
  refine ⟨h.more.trans h'.more, ?_, ?_, ?_, ?_⟩
  · rw [h'.allocated, h.allocated, List.filterMap_append, List.append_assoc]
  · rw [h'.entries, h.entries, List.append_assoc]
  · rw [List.filterMap_append]
    exact List.rel_append (h.subnodes.imp fun _ _ hsp => hsp.mono h'.more.grows) h'.subnodes
  · refine List.rel_append (h.places.imp fun _ _ hp => ?_) (h'.places.imp fun _ _ hp => ?_)
    · exact hp.mono h'.more.grows h'.more.heap.items (List.subset_append_left _ _)
    · exact hp.mono (.refl h'.more.grows.sound) (fun _ _ hi => hi) (List.subset_append_right _ _)

/-- One value. -/
theorem place_stowed {v : PcValue} {hnid : Nat} (hrun : PropertyContext.place v t = .ok hnid t')
    (hs : Sound t.1.1) (hsub : t.1.2.Ok) (hok : t.2.Ok) :
    ∃ added, Stowed t t' [v] [hnid] added := by
  obtain ⟨hmore, _⟩ := PropertyContext.place_spec hrun hs hsub hok
  cases v with
  | inline v =>
    obtain ⟨rfl, rfl⟩ := pure_eq_ok.1 hrun
    exact ⟨[], hmore, (List.append_nil _).symm, (List.append_nil _).symm, .nil,
      .cons (.inline v) .nil⟩
  | spilled nid =>
    obtain ⟨rfl, rfl⟩ := pure_eq_ok.1 hrun
    exact ⟨[], hmore, (List.append_nil _).symm, (List.append_nil _).symm, .nil,
      .cons (.spilled nid) .nil⟩
  | bytes b =>
    obtain ⟨⟨w, s⟩, h⟩ := t
    obtain ⟨⟨w', s'⟩, h'⟩ := t'
    rcases ite_eq_ok.1 (show storeBytes b _ = _ from hrun) with ⟨hlen, hrun⟩ | ⟨hlen, hrun⟩
    · obtain ⟨halloc, heq⟩ := onLocal_eq_ok.1 hrun
      cases heq
      have hsmall : [PcValue.bytes b].filterMap PcValue.small = [b] := by
        simp [PcValue.small, hlen]
      have hlarge : [PcValue.bytes b].filterMap PcValue.large = [] := by
        simp [PcValue.large, hlen]
      refine ⟨[], hmore, ?_, (List.append_nil _).symm, hlarge ▸ .nil,
        .cons (.heap hlen (HeapNode.alloc_spec halloc hok).2.1) .nil⟩
      rw [hsmall]
      exact (HeapNode.alloc_allocated halloc).2
    · obtain ⟨hspill, rfl⟩ := onOuter_eq_ok.1 hrun
      obtain ⟨bid, hwrite, rfl, rfl⟩ := SubnodeAllocator.spill_eq_ok.1 hspill
      have hsmall : [PcValue.bytes b].filterMap PcValue.small = [] := by
        simp [PcValue.small, hlen]
      have hlarge : [PcValue.bytes b].filterMap PcValue.large = [b] := by
        simp [PcValue.large, hlen]
      have hsp : SpilledAs w' b ⟨makeNid kNidTypeLtp s.nextIndex, bid, 0⟩ := by
        refine ⟨hnidIsHid_eq_false ?_, ?_, (writeData_tree hwrite hs).2⟩
        · rw [nidType_makeNid (by decide)]
          decide
        · exact hmore.ok.fits _ (List.mem_append_right _ List.mem_cons_self)
      refine ⟨[⟨makeNid kNidTypeLtp s.nextIndex, bid, 0⟩], hmore, ?_, rfl,
        hlarge ▸ .cons hsp .nil, .cons (.subnode (not_le.1 hlen) List.mem_cons_self hsp) .nil⟩
      rw [hsmall]
      exact (List.append_nil _).symm

/-- The loop of `serialize`. -/
theorem records_stowed {values : List (Nat × PcValue)} {records : List BthRecord}
    (hrun : each
      (fun (e : Nat × PcValue) => do
        let hnid ← PropertyContext.place e.2
        pure (PropertyContext.record e.1 hnid)) values t = .ok records t')
    (hs : Sound t.1.1) (hsub : t.1.2.Ok) (hok : t.2.Ok) :
    ∃ (ps : List ((Nat × PcValue) × Nat)) (added : List SubnodeEntry), values = ps.map Prod.fst ∧
      records = ps.map (fun p => PropertyContext.record p.1.1 p.2) ∧
      Stowed t t' (values.map Prod.snd) (ps.map Prod.snd) added := by
  refine each_rule
    (I := fun done results t' => ∃ (ps : List ((Nat × PcValue) × Nat)) (added : List SubnodeEntry),
      done = ps.map Prod.fst ∧
      results = ps.map (fun p => PropertyContext.record p.1.1 p.2) ∧
      Stowed t t' (done.map Prod.snd) (ps.map Prod.snd) added) ?_
    ⟨[], [], rfl, rfl, .nil hs hsub hok⟩ hrun
  rintro done results e t₁ r t₂ _ ⟨ps, added, hdone, rfl, hstowed⟩ hone
  obtain ⟨hnid, t₃, hplace, hpure⟩ := bind_eq_ok.1 hone
  obtain ⟨rfl, rfl⟩ := pure_eq_ok.1 hpure
  obtain ⟨added', hstowed'⟩ :=
    place_stowed hplace hstowed.more.grows.sound hstowed.more.ok hstowed.more.heap.ok
  refine ⟨ps ++ [(e, hnid)], added ++ added', by simp [hdone], by simp, ?_⟩
  simpa using hstowed.append hstowed'

/-- The heap and the subnodes of a context: the values, then the pages of the tree. -/
structure PcBuilt (t t' : (NdbWriter × SubnodeAllocator) × HeapNode) (pc : PropertyContext)
    (added : List SubnodeEntry) : Prop where
  heap : ∃ pages, t'.2.allocated =
      t.2.allocated ++ (pc.values.map Prod.snd).filterMap PcValue.small ++ pages ∧
    ∀ page ∈ pages, page.length ≤ maxAllocSize
  entries : t'.1.2.entries = t.1.2.entries ++ added
  subnodes : List.Forall₂ (SpilledAs t'.1.1) ((pc.values.map Prod.snd).filterMap PcValue.large) added
  places : ∀ e ∈ pc.values, ∃ hnid, PlacedAt t'.1.1 t'.2.blocks added e.2 hnid ∧ ∀ item,
    HeapNode.Finds item t'.2 → bthLookup item t'.2.userRoot (tagId e.1) =
      some (le 2 (tagType e.1) ++ le 4 hnid)

theorem build_built {std : StdSort} {pc : PropertyContext} (hrun : pc.build std t = .ok () t')
    (hs : Sound t.1.1) (hsub : t.1.2.Ok) (hok : t.2.Ok) : ∃ added, PcBuilt t t' pc added := by
  obtain ⟨records, h₂, root, h₃, hrecords, htree, hheap⟩ := PropertyContext.build_eq_ok hrun
  obtain ⟨ps, added, hvalues, rfl, hstowed⟩ := records_stowed hrecords hs hsub hok
  obtain ⟨hg, _, hpresent, _⟩ := PropertyContext.tree_spec hvalues htree hstowed.more.heap.ok
  obtain ⟨pages, hpages, hlen⟩ := HeapNode.buildBth_appends htree
  have hplaces : ∀ p ∈ ps, PlacedAt t'.1.1 h₂.blocks added p.1.2 p.2 := by
    have hall := hstowed.places
    rw [hvalues] at hall
    simpa only [List.map_map, List.forall₂_map_left_iff, List.forall₂_map_right_iff,
      List.forall₂_same, Function.comp_apply] using hall
  refine ⟨added, ⟨pages, ?_, hlen⟩, hstowed.entries, hstowed.subnodes, ?_⟩
  · rw [hheap, ← hstowed.allocated]
    exact hpages
  · rw [hheap]
    intro e he
    rw [hvalues] at he
    obtain ⟨p, hp, rfl⟩ := List.mem_map.1 he
    exact ⟨p.2, (hplaces p hp).mono (.refl hstowed.more.grows.sound) hg.items
      (List.Subset.refl _), hpresent p hp⟩

end

/-! ## What a reader finds -/

/-- The HNID field of a property. -/
def propertyHnid (n : NodeView) (id : Nat) : Option Nat := do
  let root ← heapUserRoot n.blocks
  let record ← bthLookup (heapItem n.blocks) root id
  pure (fromLe (slice record 2 4))

theorem NodeReads.hnid {n : NodeView} {h : HeapNode} {entries : List SubnodeEntry}
    (hreads : NodeReads n h entries) {tag hnid : Nat} (hlt : hnid < 2 ^ 32)
    (hlookup : ∀ item, HeapNode.Finds item h → bthLookup item h.userRoot (tagId tag) =
      some (le 2 (tagType tag) ++ le 4 hnid)) : propertyHnid n (tagId tag) = some hnid := by
  have hlt' : hnid < 256 ^ 4 := hlt
  have hslice := slice_of_split
    (show le 2 (tagType tag) ++ le 4 hnid = le 2 (tagType tag) ++ (le 4 hnid ++ []) by
      rw [List.append_nil]) (le_length 2 _)
  rw [le_length] at hslice
  simp only [propertyHnid, hreads.root, hlookup _ hreads.finds, Option.bind_eq_bind,
    Option.bind_some, hslice, fromLe_le_of_lt hlt']
  rfl

/-- What a call is to give: the value kept, or what is in the subnode it names. -/
inductive Setter.Gives (w : NdbWriter) (entries : List SubnodeEntry) (c : Setter) :
    PropValue → Prop
  | inline {v : Nat} (kept : c.kept = .inline v) : c.Gives w entries (.inline v)
  | bytes {b : Bytes} (kept : c.kept = .bytes b) : c.Gives w entries (.octets b)
  | spilled {e : SubnodeEntry} {leaves : List Bytes} (kept : c.kept = .spilled e.nid)
      (hmem : e ∈ entries) (htype : hnidIsHid e.nid = false) (tree : Tree w e.data leaves) :
      c.Gives w entries (.octets leaves.flatten)

theorem Setter.Gives.means {w : NdbWriter} {entries : List SubnodeEntry} {c : Setter}
    {v : PropValue} (h : c.Gives w entries v) (hfits : ∀ e ∈ entries, e.Fits)
    (blocks : List HeapBlock) : Means w blocks entries c.kept v := by
  cases h with
  | @inline v hkept =>
    have hmeans := @Means.inline w blocks entries v
    rw [Nat.mod_eq_of_lt (Setter.kept_lt hkept)] at hmeans
    rw [hkept]
    exact hmeans
  | bytes hkept =>
    rw [hkept]
    exact .bytes _
  | spilled hkept hmem htype tree =>
    rw [hkept]
    exact .spilled (hfits _ hmem).nid (.subnode hmem rfl htype tree)

/-- The calls `cs` as read from a heap and the subnodes beside it; `added` are the ones spilled. -/
structure PcRoundTrip (cs : List Setter) (w' : NdbWriter) (s s' : SubnodeAllocator)
    (n : NodeView) (added : List SubnodeEntry) : Prop where
  reads : ∀ store, Covers store w' → ∀ id c, lastSetter id cs = some c → ∀ v,
    c.Gives w' s'.entries v → readProperty store n id = some (tagType c.tag, v)
  absent : ∀ store, Covers store w' → ∀ id, lastSetter id cs = none →
    readProperty store n id = none
  inline : ∀ id c v, lastSetter id cs = some c → c.kept = .inline v → propertyHnid n id = some v
  spilled : ∀ id c nid, lastSetter id cs = some c → c.kept = .spilled nid →
    propertyHnid n id = some nid
  inHeap : ∀ id c b, lastSetter id cs = some c → c.kept = .bytes b → b.length ≤ maxAllocSize →
    ∃ hid, hid ≠ 0 ∧ hnidIsHid hid = true ∧ propertyHnid n id = some hid ∧
      heapItem n.blocks hid = some b
  inSubnode : ∀ id c b, lastSetter id cs = some c → c.kept = .bytes b → maxAllocSize < b.length →
    ∃ e ∈ added, hnidIsHid e.nid = false ∧ propertyHnid n id = some e.nid ∧
      Tree w' e.data (leavesOf b)
  -- the heap has the small values and the pages of the tree, the subnodes have the large values
  heap : ∃ blocks pages, HeapImage n.blocks blocks ∧ blocks.flatMap (·.items) =
      ((built cs).values.map Prod.snd).filterMap PcValue.small ++ pages ∧
    ∀ page ∈ pages, page.length ≤ maxAllocSize
  entries : n.subnodes = s.entries ++ added
  subnodes : List.Forall₂ (SpilledAs w') (((built cs).values.map Prod.snd).filterMap PcValue.large)
    added
  arrays : ∀ store, Covers store w' → ∀ id tag items,
    lastSetter id cs = some (.stringArray tag items) →
    (PropertyContext.stringArray items).length < 2 ^ 32 →
    ∃ b, readProperty store n id = some (tagType tag, .octets b) ∧
      readStringArray b = items.map utf8ToUtf16le


/-- A context has at most one value for each of the 65536 property ids. -/
theorem PropertyContext.values_length_le (pc : PropertyContext) : pc.values.length ≤ 2 ^ 16 := by
  have hsub : pc.values.map (fun e => tagId e.1) ⊆ List.range (2 ^ 16) := by
    intro id hid
    obtain ⟨e, _, rfl⟩ := List.mem_map.1 hid
    exact List.mem_range.2 (tagId_lt e.1)
  have hle := (List.subperm_of_subset pc.distinct hsub).length_le
  rwa [List.length_map, List.length_range] at hle

theorem PcBuilt.added_length_le {t t' : (NdbWriter × SubnodeAllocator) × HeapNode}
    {pc : PropertyContext} {added : List SubnodeEntry} (h : PcBuilt t t' pc added) :
    added.length ≤ 2 ^ 16 := by
  rw [← h.subnodes.length_eq]
  exact (List.length_filterMap_le _ _).trans
    ((List.length_map _).trans_le pc.values_length_le)

theorem PropertyContext.find_built_none {cs : List Setter} {id : Nat}
    (h : lastSetter id cs = none) : (built cs).find id = none := by
  rw [find_built, h]
  rfl

section

variable {cs : List Setter} {h : HeapNode} {w w' : NdbWriter} {s s' : SubnodeAllocator}
  {added : List SubnodeEntry} {n : NodeView}

/-- The HNID of the last call for a property id, and where it leads. -/
theorem PcBuilt.placed
    (hbuilt : PcBuilt ((w, s), { clientSig := kHnSigPC }) ((w', s'), h) (built cs) added)
    (hreads : NodeReads n h s'.entries) (hok : h.Ok) {id : Nat} {c : Setter}
    (hlast : lastSetter id cs = some c) : ∃ hnid,
      PlacedAt w' h.blocks added c.kept hnid ∧ propertyHnid n id = some hnid := by
  obtain ⟨hnid, hplaced, hlookup⟩ := hbuilt.places _ (mem_built hlast)
  obtain ⟨_, rfl⟩ := mem_of_lastSetter hlast
  refine ⟨hnid, hplaced, hreads.hnid ?_ hlookup⟩
  generalize hkept : c.kept = v at hplaced
  cases hplaced with
  | inline => exact Setter.kept_lt hkept
  | spilled => exact Setter.spilled_lt hkept
  | heap _ hitem => exact (hok.hid hitem).2.1
  | subnode _ _ hspilled => exact hspilled.fits.nid

end

/-- What the setters were given reads back, whichever of them put it where. -/
theorem property_context_round_trip {std : StdSort} {cs : List Setter} {heap : Bytes}
    {w w' : NdbWriter} {s s' : SubnodeAllocator} (hs : Sound w) (hsub : s.Ok)
    -- the index of a NID is 27 bits wide; `writeSubnodes` refuses far fewer
    (hroom : s.entries.length + 2 ^ 16 < 2 ^ 27) (hmatch : ∀ c ∈ cs, c.Matches)
    (hrun : (built cs).serialize std (w, s) = .ok heap (w', s')) :
    ∃ added, PcRoundTrip cs w' s s' ⟨pieces kMaxBlockData heap, s'.entries⟩ added := by
  obtain ⟨h, hbuild, rfl⟩ := PropertyContext.serialize_eq_ok hrun
  obtain ⟨hok, hroot, hgrows, _, hsok, hpc⟩ :=
    PropertyContext.build_spec hbuild hs hsub (HeapNode.ok_new kHnSigPC)
  obtain ⟨added, hbuilt⟩ := build_built hbuild hs hsub (HeapNode.ok_new kHnSigPC)
  replace hsok : s'.Ok := hsok
  have hentries : s'.entries = s.entries ++ added := hbuilt.entries
  have hnodup : (s'.entries.map SubnodeEntry.nid).Nodup := by
    have hnext := hsok.next
    have hadded := hbuilt.added_length_le
    rw [hentries, List.length_append] at hnext
    exact hsok.distinct (by omega)
  have hreads := nodeReads_of_heap hok hroot hnodup
  have hvalue : ∀ store, Covers store w' → ∀ id c, lastSetter id cs = some c → ∀ v,
      c.Gives w' s'.entries v →
        readProperty store ⟨pieces kMaxBlockData h.serialize, s'.entries⟩ id =
          some (tagType c.tag, v) := by
    intro store hc id c hlast v hgives
    obtain ⟨hmem, rfl⟩ := mem_of_lastSetter hlast
    exact (hpc.reads_view hok hreads hc).1 _ (mem_built hlast) (hmatch c hmem).typed v
      (hgives.means hsok.fits h.blocks)
  refine ⟨added, hvalue, ?_, ?_, ?_, ?_, ?_, ?_, hentries, hbuilt.subnodes, ?_⟩
  · intro store hc id hnone
    exact (hpc.reads_view hok hreads hc).2 id (PropertyContext.find_built_none hnone)
  · intro id c v hlast hkept
    obtain ⟨hnid, hplaced, hfield⟩ := hbuilt.placed hreads hok hlast
    rw [hkept] at hplaced
    cases hplaced
    exact hfield
  · intro id c nid hlast hkept
    obtain ⟨hnid, hplaced, hfield⟩ := hbuilt.placed hreads hok hlast
    rw [hkept] at hplaced
    cases hplaced
    exact hfield
  · intro id c b hlast hkept hlen
    obtain ⟨hnid, hplaced, hfield⟩ := hbuilt.placed hreads hok hlast
    rw [hkept] at hplaced
    cases hplaced with
    | heap _ hitem =>
      obtain ⟨hpos, _, htype⟩ := hok.hid hitem
      exact ⟨hnid, hpos.ne', htype, hfield, hreads.finds _ _ hitem⟩
    | subnode hlarge => exact absurd hlen (not_le.2 hlarge)
  · intro id c b hlast hkept hlarge
    obtain ⟨hnid, hplaced, hfield⟩ := hbuilt.placed hreads hok hlast
    rw [hkept] at hplaced
    cases hplaced with
    | heap hlen => exact absurd hlen (not_le.2 hlarge)
    | @subnode _ e _ hmem hspilled => exact ⟨e, hmem, hspilled.type, hfield, hspilled.tree⟩
  · obtain ⟨pages, hpages, hlen⟩ := hbuilt.heap
    refine ⟨h.blocks, pages, ?_, hpages, hlen⟩
    rw [HeapNode.pieces_serialize hok.packed]
    exact HeapNode.rendered_image hok.packed
  · intro store hc id tag items hlast hsmall
    exact ⟨_, hvalue store hc id _ hlast _ (.bytes rfl),
      PropertyContext.readStringArray_stringArray hsmall⟩

/-- The heap is the same, and the writer and the allocator are `o` and `o'`. -/
def Beside (o o' : NdbWriter × SubnodeAllocator)
    (t t' : (NdbWriter × SubnodeAllocator) × HeapNode) : Prop :=
  t.1 = o ∧ t'.1 = o' ∧ t.2 = t'.2

theorem beside_onLocal {α : Type} {o o' : NdbWriter × SubnodeAllocator}
    (x : EStateM PstError HeapNode α) : Simulates (Beside o o') (onLocal x) (onLocal x) := by
  rintro ⟨_, h⟩ ⟨_, _⟩ a ⟨_, h'⟩ ⟨rfl, rfl, rfl⟩ hrun
  obtain ⟨hx, rfl⟩ := onLocal_eq_ok.1 hrun
  exact ⟨_, onLocal_eq_ok.2 ⟨hx, rfl⟩, rfl, rfl, rfl⟩

theorem beside_place {o o' : NdbWriter × SubnodeAllocator} {v : PcValue} (hsmall : v.large = none) :
    Simulates (Beside o o') (PropertyContext.place v) (PropertyContext.place v) := by
  cases v with
  | inline v => exact simulates_pure v
  | spilled nid => exact simulates_pure nid
  | bytes b =>
    refine simulates_ite (fun _ => beside_onLocal _) fun hlen => ?_
    rw [PcValue.large, if_neg hlen] at hsmall
    cases hsmall

/-- A context without large values is written the same beside any subnodes. -/
theorem serialize_small {std : StdSort} {pc : PropertyContext} {heap : Bytes}
    {o o' : NdbWriter × SubnodeAllocator} (hsmall : ∀ e ∈ pc.values, e.2.large = none)
    (hrun : pc.serialize std o = .ok heap o) : pc.serialize std o' = .ok heap o' := by
  obtain ⟨h, hbuild, rfl⟩ := PropertyContext.serialize_eq_ok hrun
  have hsim : Simulates (Beside o o') (pc.build std) (pc.build std) := by
    refine simulates_bind (simulates_each fun e he => ?_) fun records => ?_
    · exact simulates_bind (beside_place (hsmall e he)) fun hnid => simulates_pure _
    · refine simulates_bind (beside_onLocal _) fun root => ?_
      rintro ⟨_, h⟩ ⟨_, _⟩ u t ⟨rfl, rfl, rfl⟩ hset
      cases modify_eq_ok.1 hset
      exact ⟨_, modify_eq_ok.2 rfl, rfl, rfl, rfl⟩
  obtain ⟨t', hbuild', hbeside⟩ :=
    hsim (o, { clientSig := kHnSigPC }) (o', { clientSig := kHnSigPC }) () (o, h)
      ⟨rfl, rfl, rfl⟩ hbuild
  obtain rfl : t' = (o', h) := Prod.ext hbeside.2.1 hbeside.2.2.symm
  exact bind_eq_ok.2 ⟨((), h), o', withLocal_eq_ok.2 hbuild', rfl⟩

/-- An id whose value is replaced by one of another type, an empty value and an array. -/
theorem replaced_round_trip : ∃ w heap, Sound w ∧
    (built [.int32 0x00020003 5, .binary 0x00010102 [], .stringArray 0x0003101F [[65], []],
      .int64 0x00020014 6]).serialize .insertion (w, {}) = .ok heap (w, {}) ∧
    ∃ added, PcRoundTrip [.int32 0x00020003 5, .binary 0x00010102 [],
      .stringArray 0x0003101F [[65], []], .int64 0x00020014 6] w {} {}
      ⟨pieces kMaxBlockData heap, []⟩ added := by
  obtain ⟨_, w, _, hw⟩ := openWriter_returns
  obtain ⟨heap, hrun⟩ : ∃ heap, (built [.int32 0x00020003 5, .binary 0x00010102 [],
      .stringArray 0x0003101F [[65], []], .int64 0x00020014 6]).serialize .insertion
        ({ fate := fun _ => true }, {}) = .ok heap ({ fate := fun _ => true }, {}) := ⟨_, rfl⟩
  have hrun' := @serialize_small _ _ _ _ (w, {}) (List.forall_iff_forall_mem.1 (by decide)) hrun
  exact ⟨w, heap, hw.1.sound, hrun', property_context_round_trip hw.1.sound
    SubnodeAllocator.ok_new (by decide) (by decide) hrun'⟩

/-- Three octets are on the heap; given as the value of a subnode they stay in it. -/
theorem three_octets_not_inline :
    (∃ heap, (built [.binary 0x00010102 [1, 2, 3]]).serialize .insertion
        ({ fate := fun _ => true }, {}) = .ok heap ({ fate := fun _ => true }, {}) ∧
      propertyHnid ⟨pieces kMaxBlockData heap, []⟩ 1 = some 0x20 ∧
      heapItem (pieces kMaxBlockData heap) 0x20 = some [1, 2, 3]) ∧
    ∃ heap, (built [.spilledValue 0x00010102 0x3F]).serialize .insertion
        ({ fate := fun _ => true }, { entries := [⟨0x3F, 4, 0⟩], nextIndex := 2 }) =
          .ok heap ({ fate := fun _ => true }, { entries := [⟨0x3F, 4, 0⟩], nextIndex := 2 }) ∧
      propertyHnid ⟨pieces kMaxBlockData heap, [⟨0x3F, 4, 0⟩]⟩ 1 = some 0x3F ∧
      readProperty (fun bid => if bid = 4 then some [1, 2, 3] else none)
        ⟨pieces kMaxBlockData heap, [⟨0x3F, 4, 0⟩]⟩ 1 = some (0x102, .octets [1, 2, 3]) :=
  ⟨⟨_, rfl, by decide +kernel, by decide +kernel⟩, _, rfl, by decide +kernel, by decide +kernel⟩

end Pst
end Imap2Pst
