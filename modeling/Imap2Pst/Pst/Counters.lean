import Imap2Pst.Pst.Session

/-!
# Pst.Counters

The counters in the header of a finished file, against what the file holds.

* `NdbOp.kinds` — the blocks an operation writes, from its arguments alone.
* `readCounters` — `bidNextP`, `bidNextB` and `rgnid`, read back.
* `counters_fresh` — no identifier in the file is one that the counters would hand out next.
-/

namespace Imap2Pst
namespace Pst

open CxxStd

/-! ## Kinds of blocks -/

inductive BlockKind where
  | data | xblock | xxblock | slblock | siblock
  deriving DecidableEq, Repr

namespace BlockKind

def internal (k : BlockKind) : Bool := k ≠ data

/-- `btype` and `cLevel`. -/
def header : BlockKind → Bytes
  | data => []
  | xblock => [0x01, 0x01]
  | xxblock => [0x01, 0x02]
  | slblock => [0x02, 0x00]
  | siblock => [0x02, 0x01]

end BlockKind

/-- The blocks over so many leaves. -/
def treeKinds (leaves : Nat) : List BlockKind :=
  if leaves = 0 then [.data]
  else if leaves = 1 then []
  else if leaves ≤ kXBlockFanout then [.xblock]
  else List.replicate (passes leaves kXBlockFanout) .xblock ++ [.xxblock]

def subnodeKinds (entries : Nat) : List BlockKind :=
  if entries = 0 then []
  else if entries ≤ kSlBlockFanout then [.slblock]
  else List.replicate (passes entries kSlBlockFanout) .slblock ++ [.siblock]

/-- The blocks an operation writes, in order. -/
def NdbOp.kinds : NdbOp → List BlockKind
  | .writeData data =>
    if data.length ≤ kMaxBlockData then [.data]
    else List.replicate (passes data.length kMaxBlockData) .data ++
      treeKinds (passes data.length kMaxBlockData)
  | .writeLeafChunk _ => [.data]
  | .assembleDataTree leaves _ => treeKinds leaves.length
  | .writeSubnodes entries => subnodeKinds entries.length
  | .addNode .. => []

/-- The block has the header of its kind, and the bit of an internal block when it is one. -/
structure OfKind (k : BlockKind) (x : Written) : Prop where
  block : x.kind.isLeft
  internal : bidIsInternal x.bid = k.internal
  header : k.header <+: x.image

theorem isLeft_of_kinds {kinds : List BlockKind} {blocks : List Written}
    (h : List.Forall₂ OfKind kinds blocks) {x : Written} (hx : x ∈ blocks) : x.kind.isLeft := by
  induction h with
  | nil => cases hx
  | cons hkind _ ih =>
    rcases List.mem_cons.1 hx with rfl | hx
    · exact hkind.block
    · exact ih hx

/-- What a call writes is a run of blocks of these kinds. -/
def Emits {α : Type} (kinds : List BlockKind) (x : Ndb α) : Prop :=
  ∀ w a w', x w = .ok a w' → Sound w → Sound w' ∧
    ∃ new, w'.history = w.history ++ new ∧ List.Forall₂ OfKind kinds new

section

variable {α β : Type}

theorem emits_pure (a : α) : Emits [] (pure a : Ndb α) := by
  intro w b w' h hs
  obtain ⟨rfl, rfl⟩ := pure_eq_ok.1 h
  exact ⟨hs, [], (List.append_nil _).symm, .nil⟩

theorem emits_throw_bind (kinds : List BlockKind) (e : PstError) (f : α → Ndb β) :
    Emits kinds (throw e >>= f) := by
  intro w b w' h
  obtain ⟨_, _, h, _⟩ := bind_eq_ok.1 h
  cases h

theorem emits_ite {kinds : List BlockKind} {c : Prop} [Decidable c] {x y : Ndb α}
    (hx : c → Emits kinds x) (hy : ¬c → Emits kinds y) : Emits kinds (if c then x else y) := by
  intro w a w' h
  rcases ite_eq_ok.1 h with ⟨hc, h⟩ | ⟨hc, h⟩
  · exact hx hc w a w' h
  · exact hy hc w a w' h

theorem emits_bind {kinds kinds' : List BlockKind} {x : Ndb α} {f : α → Ndb β}
    (hx : Emits kinds x) (hf : ∀ w a w', x w = .ok a w' → Emits kinds' (f a)) :
    Emits (kinds ++ kinds') (x >>= f) := by
  intro w b w'' h hs
  obtain ⟨a, w', ha, hb⟩ := bind_eq_ok.1 h
  obtain ⟨hs', new, hnew, hkinds⟩ := hx w a w' ha hs
  obtain ⟨hs'', new', hnew', hkinds'⟩ := hf w a w' ha w' b w'' hb hs'
  refine ⟨hs'', new ++ new', ?_, List.rel_append hkinds hkinds'⟩
  rw [hnew', hnew, List.append_assoc]

theorem emits_bind_pure {kinds : List BlockKind} {x : Ndb α} {f : α → Ndb β}
    (hx : Emits kinds x) (hf : ∀ a, Emits [] (f a)) : Emits kinds (x >>= f) := by
  have h := emits_bind hx fun _ a _ _ => hf a
  rwa [List.append_nil] at h

/-- A loop whose passes write one block each. -/
theorem emits_each {k : BlockKind} {f : α → Ndb β} (as : List α)
    (hf : ∀ a ∈ as, Emits [k] (f a)) : Emits (List.replicate as.length k) (each f as) := by
  induction as with
  | nil => exact emits_pure []
  | cons a as ih =>
    exact emits_bind (hf a (by simp)) fun _ b _ _ =>
      emits_bind_pure (ih fun a' ha' => hf a' (by simp [ha'])) fun bs => emits_pure _

theorem emitBlock_emits (k : BlockKind) {data : Bytes} (h : k.header <+: data) :
    Emits [k] (emitBlock data k.internal) := by
  intro w bid w' hrun hs
  obtain ⟨hs', _, hbid, ib, hhist, _⟩ := emitBlock_spec hrun hs
  refine ⟨hs', _, hhist, .cons ⟨rfl, ?_, ?_⟩ .nil⟩
  · show bidIsInternal bid = k.internal
    rw [hbid, bidIsInternal_makeBid hs.index_lt]
  · show k.header <+: blockImage data ib bid
    simp only [blockImage, List.append_assoc]
    exact h.trans (List.prefix_append _ _)

theorem writeLeafChunk_emits (data : Bytes) : Emits [.data] (writeLeafChunk data) :=
  emitBlock_emits .data (List.nil_prefix)

theorem emitXBlock_emits (children : List Nat) (totalBytes : Nat) :
    Emits [.xblock] (emitXBlock children 1 totalBytes) :=
  emitBlock_emits .xblock ⟨_, by simp only [xBlockData, List.append_assoc]; rfl⟩

theorem emitXXBlock_emits (children : List Nat) (totalBytes : Nat) :
    Emits [.xxblock] (emitXBlock children 2 totalBytes) :=
  emitBlock_emits .xxblock ⟨_, by simp only [xBlockData, List.append_assoc]; rfl⟩

theorem emitSl_emits (entries : List SubnodeEntry) : Emits [.slblock] (emitSl entries) :=
  emitBlock_emits .slblock ⟨_, by simp only [slBlockData, List.append_assoc]; rfl⟩

theorem emitSi_emits (children : List (Nat × Nat)) :
    Emits [.siblock] (emitBlock (siBlockData children) true) :=
  emitBlock_emits .siblock ⟨_, by simp only [siBlockData, List.append_assoc]; rfl⟩

theorem assembleDataTree_emits (leaves : List Nat) (totalBytes : Nat) :
    Emits (treeKinds leaves.length) (assembleDataTree leaves totalBytes) := by
  by_cases hmany : 1 < leaves.length
  · rw [assembleDataTree_of_many hmany, treeKinds, if_neg (by omega), if_neg (by omega)]
    refine emits_ite (fun _ => emits_throw_bind _ _ _) fun _ => ?_
    by_cases hone : leaves.length ≤ kXBlockFanout
    · rw [if_pos hone, if_pos hone]
      exact emitXBlock_emits _ _
    · rw [if_neg hone, if_neg hone]
      have hloop := emits_each (k := .xblock) (pieces kXBlockFanout leaves).zipIdx
        (f := fun x => emitXBlock x.1 1
          (coveredBytes totalBytes (x.2 * kXBlockFanout) x.1.length))
        fun _ _ => emitXBlock_emits _ _
      rw [List.length_zipIdx, pieces_length] at hloop
      exact emits_bind hloop fun _ _ _ _ =>
        emits_ite (fun _ => emits_throw_bind _ _ _) fun _ => emitXXBlock_emits _ _
  · cases leaves with
    | nil => exact writeLeafChunk_emits []
    | cons leaf leaves =>
      cases leaves with
      | nil => exact emits_pure leaf
      | cons leaf' leaves => simp at hmany

theorem writeData_emits (data : Bytes) :
    Emits (NdbOp.kinds (.writeData data)) (writeData data) := by
  by_cases hone : data.length ≤ kMaxBlockData
  · rw [NdbOp.kinds, if_pos hone, writeData, if_pos hone]
    exact writeLeafChunk_emits data
  · rw [NdbOp.kinds, if_neg hone, writeData, if_neg hone]
    have hloop := emits_each (pieces kMaxBlockData data) fun c _ => writeLeafChunk_emits c
    rw [pieces_length] at hloop
    refine emits_bind hloop fun w leaves w' hrun => ?_
    have hcount := each_length hrun
    rw [pieces_length] at hcount
    exact hcount ▸ assembleDataTree_emits leaves data.length

theorem writeSubnodes_emits (std : StdSort) (entries : List SubnodeEntry) :
    Emits (subnodeKinds entries.length) (writeSubnodes std entries) := by
  unfold writeSubnodes subnodeKinds
  by_cases hnone : entries = []
  · rw [if_pos hnone, if_pos (List.length_eq_zero_iff.2 hnone)]
    exact emits_pure 0
  rw [if_neg hnone, if_neg fun h => hnone (List.length_eq_zero_iff.1 h)]
  dsimp only
  rw [std.length_sort]
  by_cases hone : entries.length ≤ kSlBlockFanout
  · rw [if_pos hone, if_pos hone]
    exact emitSl_emits _
  rw [if_neg hone, if_neg hone]
  have hloop := emits_each
    (pieces kSlBlockFanout (std.sort (byKey SubnodeEntry.nid) entries))
    (f := fun piece => do
      let bid ← emitSl piece
      pure ((piece.headD {}).nid, bid))
    fun piece _ => emits_bind_pure (emitSl_emits piece) fun bid => emits_pure _
  rw [pieces_length, std.length_sort] at hloop
  exact emits_bind hloop fun _ children _ _ => emits_ite (fun _ => emits_throw_bind _ _ _) fun _ =>
    emitSi_emits children

theorem NdbOp.run_emits (std : StdSort) (op : NdbOp) : Emits op.kinds (op.run std) := by
  cases op with
  | writeData data => exact emits_bind_pure (writeData_emits data) fun _ => emits_pure _
  | writeLeafChunk data => exact emits_bind_pure (writeLeafChunk_emits data) fun _ => emits_pure _
  | assembleDataTree leaves n =>
    exact emits_bind_pure (assembleDataTree_emits leaves n) fun _ => emits_pure _
  | writeSubnodes entries =>
    exact emits_bind_pure (writeSubnodes_emits std entries) fun _ => emits_pure _
  | addNode nid data sub parent =>
    intro w u w' h hs
    have hopen := hs.reindex (List.Perm.refl _) (w.nbt ++ [⟨nid, data, sub, parent⟩]) w.finished
    cases modify_eq_ok.1 h
    exact ⟨hopen, [], (List.append_nil _).symm, .nil⟩

theorem ops_emit (std : StdSort) (ops : List NdbOp) :
    Emits (ops.flatMap NdbOp.kinds) (each (NdbOp.run std) ops) := by
  induction ops with
  | nil => exact emits_pure []
  | cons op ops ih =>
    exact emits_bind (op.run_emits std) fun _ _ _ _ =>
      emits_bind_pure ih fun _ => emits_pure _

end

/-! ## Nodes -/

/-- The node an operation adds. -/
def NdbOp.node : NdbOp → Option NbtEntry
  | .addNode nid data sub parent => some ⟨nid, data, sub, parent⟩
  | _ => none

theorem NdbOp.run_nbt {std : StdSort} (op : NdbOp) {w w' : NdbWriter} {u : Unit}
    (h : op.run std w = .ok u w') (hs : Sound w) : w'.nbt = w.nbt ++ op.node.toList := by
  have hsame {α : Type} {x : Ndb α} (hx : Moves SoundlyGrows x)
      (h : (do let _ ← x) w = .ok u w') : w'.nbt = w.nbt ++ [] := by
    rw [List.append_nil]
    exact (moves_bind hx (fun _ => moves_pure _) w u w' h hs).nbt
  cases op with
  | writeData data => exact hsame (writeData_grows data) h
  | writeLeafChunk data => exact hsame (emitBlock_grows data false) h
  | assembleDataTree leaves n => exact hsame (assembleDataTree_grows leaves n) h
  | writeSubnodes entries => exact hsame (writeSubnodes_moves emitBlock_grows std entries) h
  | addNode nid data sub parent =>
    cases modify_eq_ok.1 h
    rfl

/-- The state before the close: its blocks and its nodes are those of the operations. -/
theorem opened_holds {std : StdSort} {ops : List NdbOp} {fate : Nat → Bool} {w : NdbWriter}
    {u : Unit} (h : opened std ops { fate } = .ok u w) :
    List.Forall₂ OfKind (ops.flatMap NdbOp.kinds) w.history ∧ w.nbt = ops.filterMap NdbOp.node := by
  obtain ⟨_, w₀, hopen, h⟩ := bind_eq_ok.1 h
  obtain ⟨_, w₁, hops, h⟩ := bind_eq_ok.1 h
  obtain ⟨_, rfl⟩ := pure_eq_ok.1 h
  have hstart := openWriter_spec hopen
  obtain ⟨-, new, hnew, hkinds⟩ := ops_emit std ops w₀ _ w₁ hops hstart.sound
  rw [hstart.history, List.nil_append] at hnew
  refine ⟨hnew ▸ hkinds, ?_⟩
  refine (each_rule (I := fun done _ v => Sound v ∧ v.nbt = done.filterMap NdbOp.node) ?_
    ⟨hstart.sound, hstart.nbt⟩ hops).2
  rintro done results op v u v' hop ⟨hs, hnbt⟩ hrun
  refine ⟨(op.run_emits std v u v' hrun hs).1, ?_⟩
  rw [op.run_nbt hrun hs, hnbt, List.filterMap_append]
  cases hnode : op.node <;> simp [hnode]

/-- `finish` adds B-tree pages and no block. -/
theorem Finished.blocks {std : StdSort} {w w₂ : NdbWriter} {nbt bbt : Bref}
    (h : Finished std w w₂ nbt bbt) (hs : Sound w)
    (hall : ∀ x ∈ w.history, x.kind.isLeft) :
    (w₂.history.filter fun x => x.kind.isLeft) = w.history := by
  obtain ⟨pages, hpages⟩ := h.history
  have hcount : (pages.filterMap Written.entry).length = 0 := by
    have hafter := h.sound.blocks.length_eq
    have hbefore := hs.blocks.length_eq
    rw [← hpages, List.filterMap_append, List.length_append, h.bbtSorted, std.length_sort] at hafter
    omega
  have hnone : pages.filter (fun x => x.kind.isLeft) = [] := by
    refine List.filter_eq_nil_iff.2 fun x hx hblock => ?_
    have hentry := List.filterMap_eq_nil_iff.1 (List.length_eq_zero_iff.1 hcount) x hx
    cases hkind : x.kind with
    | inl cb => simp only [Written.entry, hkind, reduceCtorEq] at hentry
    | inr ptype => rw [hkind] at hblock; cases hblock
  rw [← hpages, List.filter_append, hnone, List.append_nil]
  exact List.filter_eq_self.2 hall

/-! ## The header, read back -/

structure Counters where
  bidNextP : Nat
  bidNextB : Nat
  rgnid : Nat → Nat

def readCounters (f : File) : Counters where
  bidNextP := fromLe (f.read 32 8)
  bidNextB := fromLe (f.read 516 8)
  rgnid t := fromLe (f.read (44 + t * 4) 4)

/-- The BID in the trailer of the density list. -/
def dlistBid (f : File) : Nat := fromLe (f.read (kDListPos + 504) 8)

/-- One pass of the loop of `nextNidIndex`. -/
def bumpIndex (t next : Nat) (e : NbtEntry) : Nat :=
  if nidType e.nid = t then max next (nidIndex e.nid + 1) else next

theorem nextNidIndex_eq (l : List NbtEntry) (t : Nat) :
    nextNidIndex l t = l.foldl (bumpIndex t) kFirstUserNidIndex := rfl

theorem le_bumpIndex (t next : Nat) (e : NbtEntry) : next ≤ bumpIndex t next e := by
  unfold bumpIndex
  split
  · exact Nat.le_max_left _ _
  · exact le_rfl

theorem le_foldl_bumpIndex (l : List NbtEntry) (t next : Nat) :
    next ≤ l.foldl (bumpIndex t) next := by
  induction l generalizing next with
  | nil => exact le_rfl
  | cons e l ih => exact (le_bumpIndex t next e).trans (ih _)

theorem lt_foldl_bumpIndex {l : List NbtEntry} {e : NbtEntry} (he : e ∈ l) (next : Nat) :
    nidIndex e.nid < l.foldl (bumpIndex (nidType e.nid)) next := by
  induction l generalizing next with
  | nil => cases he
  | cons e' l ih =>
    rcases List.mem_cons.1 he with rfl | he
    · refine Nat.lt_of_lt_of_le ?_ (le_foldl_bumpIndex l _ _)
      rw [bumpIndex, if_pos rfl]
      exact Nat.le_max_right _ _
    · exact ih he _

theorem foldl_bumpIndex_lt {l : List NbtEntry} (t : Nat) (h : ∀ e ∈ l, e.nid < 2 ^ 32) :
    ∀ next < 2 ^ 32, l.foldl (bumpIndex t) next < 2 ^ 32 := by
  induction l with
  | nil => exact fun _ hnext => hnext
  | cons e l ih =>
    intro next hnext
    refine ih (fun e' he' => h e' (List.mem_cons_of_mem _ he')) _ ?_
    have hnid := h e List.mem_cons_self
    have hindex : nidIndex e.nid = e.nid / 2 ^ 5 := Nat.shiftRight_eq_div_pow _ _
    unfold bumpIndex
    split
    · omega
    · exact hnext

/-- Where the counters stand in the header. -/
theorem headerImage_counters (w : NdbWriter) (nbt bbt : Bref) : ∃ front mid rest,
    headerImage w nbt bbt = front ++ le 8 (makeBid w.nextBidIndex false) ++ le 4 1 ++
      ((List.range 32).map (nextNidIndex w.nbt)).flatMap (le 4) ++ mid ++
      le 8 (makeBid w.nextBidIndex false) ++ rest ∧ front.length = 32 ∧ mid.length = 344 := by
  have himage : headerImage w nbt bbt = le 4 0x4E444221 ++
      le 4 (computeCrc ((headerCore w nbt bbt).take 471)) ++ headerCore w nbt bbt ++
      le 4 (computeCrc (headerCore w nbt bbt)) ++ List.replicate 36 0 := rfl
  generalize computeCrc ((headerCore w nbt bbt).take 471) = partialCrc at himage
  generalize computeCrc (headerCore w nbt bbt) = fullCrc at himage
  refine ⟨le 4 0x4E444221 ++ le 4 partialCrc ++ le 2 0x4D53 ++ le 2 23 ++ le 2 19 ++
      [0x01, 0x01] ++ List.replicate 8 0 ++ le 8 0,
    List.replicate 8 0 ++ rootBytes w nbt bbt ++ List.replicate 4 0 ++ List.replicate 128 0xFF ++
      List.replicate 128 0xFF ++ [0x80, 0x00, 0, 0],
    le 4 fullCrc ++ List.replicate 36 0, ?_, ?_, ?_⟩
  · rw [himage]
    simp only [headerCore, List.flatMap_map, List.append_assoc]
  · simp only [List.length_append, le_length, List.length_replicate, List.length_cons,
      List.length_nil]
  · simp only [rootBytes, List.length_append, le_length, List.length_replicate, List.length_cons,
      List.length_nil]

section

variable {std : StdSort} {w w₂ : NdbWriter} {nbt bbt : Bref}

theorem Finished.header (h : Finished std w w₂ nbt bbt) :
    (closedFile w₂ nbt bbt).read 0 kHeaderSize = headerImage (headerState w₂) nbt bbt := by
  have hread := read_closing nbt bbt h.sound
    (List.mem_append_right _ (List.mem_singleton.2 rfl) :
      (0, headerImage (headerState w₂) nbt bbt) ∈ closing w₂ nbt bbt)
  rwa [headerImage_length] at hread

/-- The counter of BIDs, after the density list took one, and the counters of NIDs. -/
theorem Finished.counters (h : Finished std w w₂ nbt bbt) (hnids : ∀ e ∈ w₂.nbt, e.nid < 2 ^ 32) :
    (readCounters (closedFile w₂ nbt bbt)).bidNextP = 4 * (w₂.nextBidIndex + 1) ∧
      (readCounters (closedFile w₂ nbt bbt)).bidNextB = 4 * (w₂.nextBidIndex + 1) ∧
      ∀ t < 32, (readCounters (closedFile w₂ nbt bbt)).rgnid t = nextNidIndex w₂.nbt t := by
  have hbids := h.sound.bids
  have hsmall := h.sound.small
  have hindex : w₂.nextBidIndex + 1 < 2 ^ 58 := by
    unfold kBlockAlign at hbids
    omega
  have hnext : makeBid (headerState w₂).nextBidIndex false = 4 * (w₂.nextBidIndex + 1) :=
    makeBid_of_lt (hindex.trans (by decide)) false
  obtain ⟨front, mid, rest, himage, hfront, hmid⟩ := headerImage_counters (headerState w₂) nbt bbt
  have hheader := h.header.trans himage
  rw [hnext] at hheader
  have hrow : (((List.range 32).map (nextNidIndex (headerState w₂).nbt)).flatMap (le 4)).length =
      128 := by
    rw [length_flatMap_of_forall (n := 4) fun _ _ => le_length _ _, List.length_map,
      List.length_range]
  have hfits : 4 * (w₂.nextBidIndex + 1) < 256 ^ 8 := by omega
  generalize hx : 4 * (w₂.nextBidIndex + 1) = x at hheader hfits ⊢
  have hnextP : (closedFile w₂ nbt bbt).read 0 kHeaderSize = front ++ le 8 x ++ (le 4 1 ++
      ((List.range 32).map (nextNidIndex (headerState w₂).nbt)).flatMap (le 4) ++ mid ++ le 8 x ++
      rest) := by
    rw [hheader]
    simp only [List.append_assoc]
  have hrgnid : (closedFile w₂ nbt bbt).read 0 kHeaderSize = (front ++ le 8 x ++ le 4 1) ++
      ((List.range 32).map (nextNidIndex (headerState w₂).nbt)).flatMap (le 4) ++
      (mid ++ le 8 x ++ rest) := by
    rw [hheader]
    simp only [List.append_assoc]
  refine ⟨?_, ?_, fun t ht => ?_⟩
  · have hread := File.read_middle hnextP
    rw [hfront, le_length] at hread
    exact (congrArg fromLe hread).trans (fromLe_le_of_lt hfits)
  · have hread := File.read_middle hheader
    simp only [List.length_append, hfront, le_length, hrow, hmid] at hread
    exact (congrArg fromLe hread).trans (fromLe_le_of_lt hfits)
  · have hlt := foldl_bumpIndex_lt t hnids kFirstUserNidIndex (by decide)
    have hread := read_le_row (k := t) hrgnid
      (by rw [List.getElem?_map, List.getElem?_range ht]; rfl) hlt
    simp only [List.length_append, hfront, le_length] at hread
    exact hread

theorem Finished.dlist (h : Finished std w w₂ nbt bbt) :
    dlistBid (closedFile w₂ nbt bbt) = 4 * w₂.nextBidIndex := by
  have hindex := h.sound.index_lt
  have hbid : makeBid w₂.nextBidIndex false = 4 * w₂.nextBidIndex := makeBid_of_lt hindex false
  have hread := read_closing nbt bbt h.sound
    (List.mem_append_left _ (List.mem_append_left _ List.mem_cons_self) :
      dlistWrite (makeBid w₂.nextBidIndex false) ∈ closing w₂ nbt bbt)
  dsimp only [dlistWrite] at hread
  rw [pageImage_size List.length_replicate, hbid, pageImage] at hread
  have htrailer := File.read_middle (c := []) (hread.trans (List.append_nil _).symm)
  simp only [List.length_append, List.length_replicate, le_length, List.length_cons,
    List.length_nil] at htrailer
  exact (congrArg fromLe htrailer).trans (fromLe_le_of_lt (by omega))

end

/-! ## Fresh counters -/

/-- What holds of the identifiers in a finished file. -/
structure CountersFresh (ops : List NdbOp) (w : NdbWriter) : Prop where
  /-- The entries of the block tree are the blocks. -/
  blocks : ((readLeaves w.file 8 (readRoot w.file).bbt.ib).map entryKey).Perm
    ((w.history.filterMap Written.entry).map BbtEntry.bid)
  /-- Each BID stands in the trailer of its block or page. -/
  verifies : ∀ x ∈ w.history, Verifies w.file x
  kinds : List.Forall₂ OfKind (ops.flatMap NdbOp.kinds) (w.history.filter fun x => x.kind.isLeft)
  above : ∀ bid ∈ dlistBid w.file :: w.history.map Written.bid,
    bid < (readCounters w.file).bidNextP ∧ bid < (readCounters w.file).bidNextB
  distinct : ((dlistBid w.file :: w.history.map Written.bid).map (· / 4)).Nodup
  nodes : (readLeaves w.file 8 (readRoot w.file).nbt.ib).Perm
    ((ops.filterMap NdbOp.node).map nbtBytes)
  rgnid : ∀ t < 32, 0x400 ≤ (readCounters w.file).rgnid t ∧
    ∀ e ∈ readLeaves w.file 8 (readRoot w.file).nbt.ib, nidType (entryKey e) = t →
      nidIndex (entryKey e) < (readCounters w.file).rgnid t

theorem counters_fresh {std : StdSort} {ops : List NdbOp} {fate : Nat → Bool} {w : NdbWriter}
    {u : Unit} (h : session std ops { fate } = .ok u w)
    (hnids : ∀ e ∈ ops.filterMap NdbOp.node, e.nid < 2 ^ 32) : CountersFresh ops w := by
  obtain ⟨w₁, hopened, hfinish⟩ := session_opened h
  have hopen := opened_open hopened
  obtain ⟨hkinds, hnodes⟩ := opened_holds hopened
  obtain ⟨w₂, nbt, bbt, fate', hfin, rfl⟩ := finish_spec hfinish hopen.sound hopen.unfinished
  have hs := hfin.sound
  have hf : Retains (closedFile w₂ nbt bbt) w₂.history := fun x hx => read_closedFile nbt bbt hs hx
  have hnbt : w₂.nbt.Perm (ops.filterMap NdbOp.node) :=
    hnodes ▸ hfin.nbtSorted ▸ std.perm _ _
  have hnids₂ : ∀ e ∈ w₂.nbt, e.nid < 2 ^ 32 := fun e he => hnids e (hnbt.subset he)
  have hnidKey : ∀ e ∈ w₂.nbt, entryKey (nbtBytes e) = e.nid := fun e he =>
    nbtBytes_key ((hnids₂ e he).trans (by decide))
  have hnbtWalk := (hfin.nbtTree (fun e he => (hnids e (hnodes ▸ he)).trans (by decide)) _
    hf).readLeaves
  have hbbtWalk := (hfin.bbtTree _ hf).readLeaves
  obtain ⟨hnextP, hnextB, hrgnid⟩ := hfin.counters hnids₂
  have hdlist := hfin.dlist
  have hroot := hfin.readRoot
  -- the closed file in place of the final state's
  change CountersFresh ops { headerState w₂ with fate := fate', file := closedFile w₂ nbt bbt }
  have hfile : (closedFile w₂ nbt bbt) =
    NdbWriter.file { headerState w₂ with fate := fate', file := closedFile w₂ nbt bbt } := rfl
  have hbelow (x) (hx : x ∈ w₂.history) : x.bid < 4 * w₂.nextBidIndex := by
    have hfresh := hs.fresh x hx
    omega
  refine ⟨?_, fun x hx => ?_, ?_, fun bid hbid => ?_, ?_, ?_, fun t ht => ?_⟩
  · rw [← hfile, hroot, hbbtWalk, map_entryKey fun e he => bbtBytes_key (hs.bbt_fits e he)]
    exact (hs.blocks.map _).symm
  · exact verifies_of_read (hs.made x hx) ((hbelow x hx).trans (by have := hs.index_lt; omega))
      (hf x hx)
  · show List.Forall₂ OfKind _ (w₂.history.filter fun x => x.kind.isLeft)
    rw [hfin.blocks hopen.sound fun x => isLeft_of_kinds hkinds]
    exact hkinds
  · rw [← hfile, hnextP, hnextB]
    rw [← hfile, hdlist] at hbid
    rcases List.mem_cons.1 hbid with rfl | hbid
    · omega
    · obtain ⟨x, hx, rfl⟩ := List.mem_map.1 hbid
      have hlt := hbelow x hx
      omega
  · rw [← hfile, hdlist, List.map_cons, List.map_map]
    refine List.nodup_cons.2 ⟨fun hmem => ?_, ?_⟩
    · obtain ⟨x, hx, hsame⟩ := List.mem_map.1 hmem
      have hfresh := hs.fresh x hx
      simp only [Function.comp_apply] at hsame
      omega
    · exact List.pairwise_map.2 (hs.ascending.imp fun hlt => Nat.ne_of_lt hlt)
  · rw [← hfile, hroot, hnbtWalk]
    exact hnbt.map nbtBytes
  · rw [← hfile, hroot, hnbtWalk, hrgnid t ht, nextNidIndex_eq]
    refine ⟨le_foldl_bumpIndex _ _ _, fun e he htype => ?_⟩
    obtain ⟨entry, hentry, rfl⟩ := List.mem_map.1 he
    rw [hnidKey entry hentry] at htype ⊢
    exact htype ▸ lt_foldl_bumpIndex hentry _

theorem one_node_counters_fresh : ∃ w,
    session .insertion [.writeData [7], .addNode 0x8044 4 0 0x122] { fate := fun _ => true } =
      .ok () w ∧ CountersFresh [.writeData [7], .addNode 0x8044 4 0 0x122] w := by
  obtain ⟨_, w, hrun, hstart, hsteady⟩ := openWriter_returns
  have hroom : Room 5 w := ⟨hstart.sound, hsteady, by rw [hstart.cursor]; decide⟩
  obtain ⟨bid, w₁, hwrite, -⟩ := @writeData_returns 0 [7] w hroom (by decide)
  have hblock : emitBlock [7] false w = .ok bid w₁ := hwrite
  obtain ⟨_, _, _, ib, _, hbbt, hnbt, _⟩ := emitBlock_spec hblock hstart.sound
  have h : opened .insertion [.writeData [7], .addNode 0x8044 4 0 0x122] { fate := fun _ => true } =
      .ok () { w₁ with nbt := w₁.nbt ++ [⟨0x8044, 4, 0, 0x122⟩] } :=
    bind_eq_ok.2 ⟨(), w, hrun, bind_eq_ok.2 ⟨[(), ()], _, each_cons_eq_ok.2
      ⟨(), w₁, [()], bind_eq_ok.2 ⟨bid, w₁, hwrite, rfl⟩, rfl, rfl⟩, rfl⟩⟩
  obtain ⟨w', hsession⟩ := session_returns h (by simp [hbbt, hstart.bbt]) (by simp [hnbt, hstart.nbt])
  exact ⟨w', hsession, counters_fresh hsession (by decide)⟩

end Pst
end Imap2Pst
