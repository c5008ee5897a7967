import Imap2Pst.Pst.Calls

/-!
# Pst.Plans

Nodes as they are meant to be, and calls that add them to the file in turn.

* `NodePlan`  — the NID of a node, its parent, and what a reader finds in it.
* `Realizes`  — a call that returns has added nodes that are as planned.
* `writeProperties_realizes`, `writeTable_realizes` — a node with a property context, or a table.
-/

namespace Imap2Pst
namespace Pst

open CxxStd

structure NodePlan where
  nid : Nat
  parent : Nat
  /-- What is read from the data and the subnodes of the node. -/
  reads : Store → Nat → Nat → Prop

namespace NodePlan

/-- The node is as planned, in any file that has what was written. -/
structure At (p : NodePlan) (w : NdbWriter) (e : NbtEntry) : Prop where
  nid : e.nid = p.nid
  parent : e.parent = p.parent
  fits : e.Fits
  reads : ∀ store, Covers store w → p.reads store e.data e.sub

theorem At.adds {p : NodePlan} {w w' : NdbWriter} {e : NbtEntry} {es : List NbtEntry}
    (h : p.At w e) (ha : Adds es w w') : p.At w' e :=
  ⟨h.nid, h.parent, h.fits, fun store hc => h.reads store (hc.of_adds ha)⟩

/-- A node whose heap and subnodes are of this kind. -/
def view (nid parent : Nat) (P : Store → NodeView → Prop) : NodePlan where
  nid
  parent
  reads store data sub := ∃ n, readNode store data sub = some n ∧ P store n

/-- A property context. -/
def context (nid parent : Nat) (calls : List (Bool × Setter)) : NodePlan :=
  view nid parent fun store n => ContextReads store n calls (2 ^ 16)

def table (nid parent : Nat) (columns : List Nat) (rows : List RowCalls) : NodePlan where
  nid
  parent
  reads store data sub := ∃ t, readTable store data sub = some t ∧ t.HasRows columns rows

/-- A node without data. -/
def bare (nid : Nat) : NodePlan where
  nid
  parent := 0
  reads _ data sub := data = 0 ∧ sub = 0

/-- A node whose data is one block without octets. -/
def void (nid : Nat) : NodePlan where
  nid
  parent := 0
  reads store data sub := store data = some [] ∧ sub = 0

/-- An index without entries: the user root is an item that holds the HID of the tree. -/
def index (nid : Nat) : NodePlan :=
  view nid 0 fun _ n => ∃ slot hid, heapUserRoot n.blocks = some slot ∧
    heapItem n.blocks slot = some (le 4 hid) ∧ ∀ k, bthLookup (heapItem n.blocks) hid k = none

end NodePlan

/-- The nodes of the file are as planned, in this order. -/
def Planned (plans : List NodePlan) (w : NdbWriter) (es : List NbtEntry) : Prop :=
  List.Forall₂ (fun p e => p.At w e) plans es

theorem Planned.adds {plans : List NodePlan} {w w' : NdbWriter} {es added : List NbtEntry}
    (h : Planned plans w es) (ha : Adds added w w') : Planned plans w' es :=
  h.imp fun _ _ hp => hp.adds ha

theorem Planned.nids {plans : List NodePlan} {w : NdbWriter} {es : List NbtEntry}
    (h : Planned plans w es) : es.map NbtEntry.nid = plans.map NodePlan.nid := by
  induction h with
  | nil => rfl
  | cons hp _ ih => rw [List.map_cons, List.map_cons, hp.nid, ih]

theorem Planned.at_of_mem {plans : List NodePlan} {w : NdbWriter} {es : List NbtEntry}
    (h : Planned plans w es) {p : NodePlan} (hp : p ∈ plans) : ∃ e ∈ es, p.At w e := by
  induction h with
  | nil => exact absurd hp List.not_mem_nil
  | @cons q e _ _ hq _ ih =>
    rcases List.mem_cons.1 hp with rfl | hp
    · exact ⟨e, List.mem_cons_self, hq⟩
    · obtain ⟨e', he', hat⟩ := ih hp
      exact ⟨e', List.mem_cons_of_mem _ he', hat⟩

theorem Planned.fits {plans : List NodePlan} {w : NdbWriter} {es : List NbtEntry}
    (h : Planned plans w es) : ∀ e ∈ es, e.Fits := by
  induction h with
  | nil => exact fun e he => absurd he List.not_mem_nil
  | cons hp _ ih => exact List.forall_mem_cons.2 ⟨hp.fits, ih⟩

/-! ## Calls -/

/-- A call that returns has added nodes that are as planned. -/
def Realizes {α : Type} (plans : List NodePlan) (x : Ndb α) : Prop :=
  ∀ w a w', x w = .ok a w' → Sound w → ∃ es, Adds es w w' ∧ Planned plans w' es

section

variable {α β : Type}

theorem realizes_of_moves {x : Ndb α} (h : Moves SoundlyGrows x) : Realizes [] x :=
  fun w a w' hrun hs => ⟨[], (h w a w' hrun hs).adds, .nil⟩

theorem realizes_bind {plans plans' : List NodePlan} {x : Ndb α} {f : α → Ndb β}
    (hx : Realizes plans x) (hf : ∀ a, Realizes plans' (f a)) :
    Realizes (plans ++ plans') (x >>= f) := by
  intro w b w'' hrun hs
  obtain ⟨a, w', ha, hb⟩ := bind_eq_ok.1 hrun
  obtain ⟨es, hadds, hplanned⟩ := hx w a w' ha hs
  obtain ⟨es', hadds', hplanned'⟩ := hf a w' b w'' hb hadds.sound
  exact ⟨es ++ es', hadds.trans hadds', List.rel_append (hplanned.adds hadds') hplanned'⟩

theorem realizes_each {f : α → Ndb β} {plan : α → NodePlan} {as : List α}
    (hf : ∀ a ∈ as, Realizes [plan a] (f a)) : Realizes (as.map plan) (each f as) := by
  induction as with
  | nil => exact realizes_of_moves (moves_pure [])
  | cons a as ih =>
    intro w bs w' hrun hs
    obtain ⟨b, w₁, bs', hone, heach, rfl⟩ := each_cons_eq_ok.1 hrun
    obtain ⟨es, hadds, hplanned⟩ := hf a List.mem_cons_self w b w₁ hone hs
    obtain ⟨es', hadds', hplanned'⟩ :=
      ih (fun a' ha' => hf a' (List.mem_cons_of_mem _ ha')) w₁ bs' w' heach hadds.sound
    exact ⟨es ++ es', hadds.trans hadds', List.rel_append (hplanned.adds hadds') hplanned'⟩

/-- A node of data that is there. -/
theorem realizes_addNode {p : NodePlan} {data sub : Nat} (hnid : p.nid < 2 ^ 32)
    (hdata : data < 256 ^ 8) (hsub : sub < 256 ^ 8) (hparent : p.parent < 2 ^ 32)
    {w w' : NdbWriter} {u : Unit} (hrun : addNode p.nid data sub p.parent w = .ok u w')
    (hs : Sound w) (hreads : ∀ store, Covers store w → p.reads store data sub) :
    ∃ es, Adds es w w' ∧ Planned [p] w' es := by
  have hadds := addNode_adds hrun hs
  exact ⟨_, hadds, .cons ⟨rfl, rfl, ⟨hnid, hdata, hsub, hparent⟩, fun store hc =>
    hreads store (hc.of_adds hadds)⟩ .nil⟩

end

namespace PstWriter

section

variable {std : StdSort} {nid parent : Nat}

/-- A node that is written from a heap. -/
theorem view_of_heap {P : Store → NodeView → Prop} {h : HeapNode} {subs : SubnodeAllocator}
    {w w' : NdbWriter} {u : Unit}
    (hrun : writeNodeFromHeap std nid parent h.serialize subs w = .ok u w') (hs : Sound w)
    (hok : h.Ok) (hroot : h.userRoot < 2 ^ 32) (hsok : subs.Ok) (hnid : nid < 2 ^ 32)
    (hparent : parent < 2 ^ 32)
    (hreads : ∀ store n, Covers store w → NodeReads n h subs.entries → P store n) :
    ∃ es, Adds es w w' ∧ Planned [.view nid parent P] w' es := by
  obtain ⟨n, hadds, hfits, hat⟩ := writeNodeFromHeap_spec hrun hs hok hroot hsok
  refine ⟨_, hadds, .cons ⟨rfl, rfl, ⟨hnid, hfits.1, hfits.2, hparent⟩, fun store hc => ?_⟩ .nil⟩
  obtain ⟨v, hread, hv⟩ := hat.reads hc
  exact ⟨v, hread, hreads store v (hc.of_adds hadds) hv⟩

/-- A context with these calls, each for a property of its own. -/
theorem writeProperties_realizes (hnid : nid < 2 ^ 32) (hparent : parent < 2 ^ 32)
    {calls : List (Bool × Setter)} {shape : List (Nat × Nat)}
    (hshape : calls.map (fun p => p.2.shape) = shape)
    (hnodup : (shape.map fun s => tagId s.1).Nodup)
    (hmatching : ∀ s ∈ shape, fixedPropSize (tagType s.1) = s.2) :
    Realizes [.context nid parent calls]
      (writeProperties std nid parent (built (made calls))) := by
  intro w u w'' hrun hs
  unfold writeProperties at hrun
  obtain ⟨⟨heap, subs⟩, w', hlocal, hnode⟩ := bind_eq_ok.1 hrun
  obtain ⟨h, rfl, hok, hroot, hg, -, hsok, hp⟩ :=
    PropertyContext.serialize_spec (withLocal_eq_ok.1 hlocal) hs SubnodeAllocator.ok_new
  obtain ⟨es, hadds, hplanned⟩ := view_of_heap hnode hg.sound hok hroot hsok hnid hparent
    (P := fun store n => ContextReads store n calls (2 ^ 16)) fun store n hc hreads =>
      contextReads_of hp hok hreads hc hshape hnodup hmatching (fun s _ => (tagId_lt s.1).le)
        fun _ _ => rfl
  exact ⟨es, hg.adds.trans hadds, hplanned⟩

theorem writeTable_realizes (hnid : nid < 2 ^ 32) (hparent : parent < 2 ^ 32) {columns : List Nat}
    {rows : List RowCalls} (ht : Tabular columns rows)
    (hnodup : rows.length * (layout (declared columns)).tciBm ≤ 2 ^ 32 →
      (rows.map RowCalls.rowId).Nodup) :
    Realizes [.table nid parent columns rows] (writeTable std nid parent columns rows) := by
  intro w u w'' hrun hs
  unfold writeTable at hrun
  obtain ⟨n, w', hnode, hadd⟩ := bind_eq_ok.1 hrun
  obtain ⟨hg, hfits, hat, hfew⟩ := TableContext.rows_spec_of ht hnodup hnode hs
  obtain ⟨es, hadds, hplanned⟩ := realizes_addNode (p := .table nid parent columns rows) hnid
    hfits.1 hfits.2 hparent hadd hg.sound fun store hc => hat.hasRows ht (hnodup hfew) hc
  exact ⟨es, hg.adds.trans hadds, hplanned⟩

end

end PstWriter

end Pst
end Imap2Pst
