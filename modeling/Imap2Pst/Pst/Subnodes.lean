import Imap2Pst.Pst.Heap
import Imap2Pst.Pst.Trees
import Imap2Pst.Std.Index

/-!
# Pst.Subnodes

The subnode trees of `pst/ndb.cpp` as a reader sees them, and `SubnodeAllocator` of `pst/ltp.cpp`,
which hands out the NIDs of one node's subnodes.

* `readSubnodes` — the entries of a subnode tree, through an SLBLOCK or an SIBLOCK.
* `SubnodeTree` — one SLBLOCK, or an SIBLOCK whose keys are the first NIDs of its SLBLOCKs.
* `writeSubnodes_reads` — the tree that is written reads back, in order of NID.
* `SubnodeAllocator.Ok` — what the allocator keeps; `Ok.nodup`: no NID is handed out twice.
* `NodeView`, `Stored` — a node as read, and the octets an HNID of it stands for.
-/

namespace Imap2Pst
namespace Pst

open CxxStd

/-! ## Reading a subnode tree -/

/-- The entries of `n` octets of a block that counts them at offset 2. -/
def blockRows (n : Nat) (data : Bytes) : List Bytes :=
  (List.range (fromLe (slice data 2 2))).map fun i => slice data (8 + i * n) n

def slEntries (data : Bytes) : List SubnodeEntry :=
  (blockRows 24 data).map fun row =>
    ⟨fromLe (slice row 0 8), fromLe (slice row 8 8), fromLe (slice row 16 8)⟩

def siChildren (data : Bytes) : List Nat := (blockRows 16 data).map fun row => fromLe (slice row 8 8)

/-- The entries of a subnode tree; BID 0 is no tree. -/
def readSubnodes (store : Store) (bid : Nat) : Option (List SubnodeEntry) :=
  if bid = 0 then some []
  else do
    let data ← store bid
    if data.getD 0 0 ≠ 0x02 then none
    else if data.getD 1 0 = 0 then pure (slEntries data)
    else
      let below ← (siChildren data).mapM fun child => (store child).map slEntries
      pure below.flatten

/-- The subnode tree under `bid` reads as `entries`, now and when more has been written. -/
def SubnodesAt (w : NdbWriter) (bid : Nat) (entries : List SubnodeEntry) : Prop :=
  ∀ store, Covers store w → readSubnodes store bid = some entries

theorem SubnodesAt.mono {w w' : NdbWriter} {bid : Nat} {entries : List SubnodeEntry}
    (h : SubnodesAt w bid entries) (hg : Grows w w') : SubnodesAt w' bid entries :=
  fun store hc => h store (hc.of_grows hg)

structure SubnodeEntry.Fits (e : SubnodeEntry) : Prop where
  nid : e.nid < 2 ^ 32
  data : e.data < 256 ^ 8
  sub : e.sub < 256 ^ 8

theorem blockRows_of {α : Type} {f : α → Bytes} {n : Nat} {head : Bytes} {tail : Nat} {l : List α}
    {data : Bytes} (h : data = head ++ le 2 l.length ++ le 4 tail ++ l.flatMap f)
    (hhead : head.length = 2) (hlen : ∀ a ∈ l, (f a).length = n) (hcount : l.length < 256 ^ 2) :
    blockRows n data = l.map f := by
  have hsplit : data = head ++ (le 2 l.length ++ (le 4 tail ++ l.flatMap f)) := by
    simpa only [List.append_assoc] using h
  have hn := slice_of_split hsplit hhead
  rw [le_length] at hn
  have hrows : data.drop 8 = l.flatMap f := by
    rw [h]
    exact List.drop_left' (by simp [hhead])
  rw [blockRows, hn, fromLe_le_of_lt hcount]
  apply List.ext_getElem
  · simp
  · intro i h₁ h₂
    rw [List.getElem_map, List.getElem_range, List.getElem_map, slice, ← List.drop_drop, hrows,
      drop_take_flatMap hlen]

theorem slEntries_slBlockData {entries : List SubnodeEntry} (hcount : entries.length < 256 ^ 2)
    (hfits : ∀ e ∈ entries, e.Fits) : slEntries (slBlockData entries) = entries := by
  have hrows : blockRows 24 (slBlockData entries) =
      entries.map fun e => le 8 e.nid ++ le 8 e.data ++ le 8 e.sub :=
    blockRows_of rfl rfl (fun e _ => by simp) hcount
  rw [slEntries, hrows, List.map_map]
  conv_rhs => rw [← List.map_id entries]
  refine List.map_congr_left fun e he => ?_
  obtain ⟨hnid, hdata, hsub⟩ := hfits e he
  have hnid' : e.nid < 256 ^ 8 := by omega
  have hrow : le 8 e.nid ++ le 8 e.data ++ le 8 e.sub =
      le 8 e.nid ++ (le 8 e.data ++ (le 8 e.sub ++ [])) := by simp
  have h₀ := slice_of_split (show _ = [] ++ (le 8 e.nid ++ _) from hrow)
    (show ([] : Bytes).length = 0 from rfl)
  have h₁ := slice_of_split hrow (le_length 8 e.nid)
  have h₂ := slice_of_split (hrow.trans (List.append_assoc _ _ _).symm)
    (show _ = 16 from by simp)
  rw [le_length] at h₀ h₁ h₂
  simp only [Function.comp_apply, h₀, h₁, h₂, fromLe_le_of_lt hnid', fromLe_le_of_lt hdata,
    fromLe_le_of_lt hsub, id_eq]

/-- The keys of an SIBLOCK with the BIDs of its SLBLOCKs. -/
def siEntries (data : Bytes) : List (Nat × Nat) :=
  (blockRows 16 data).map fun row => (fromLe (slice row 0 8), fromLe (slice row 8 8))

theorem siChildren_eq (data : Bytes) : siChildren data = (siEntries data).map Prod.snd := by
  rw [siEntries, List.map_map]
  rfl

theorem siEntries_siBlockData {children : List (Nat × Nat)} (hcount : children.length < 256 ^ 2)
    (hkeys : ∀ c ∈ children, c.1 < 256 ^ 8) (hbids : ∀ c ∈ children, c.2 < 256 ^ 8) :
    siEntries (siBlockData children) = children := by
  have hrows : blockRows 16 (siBlockData children) =
      children.map fun c => le 8 c.1 ++ le 8 c.2 :=
    blockRows_of rfl rfl (fun c _ => by simp) hcount
  rw [siEntries, hrows, List.map_map]
  conv_rhs => rw [← List.map_id children]
  refine List.map_congr_left fun c hc => ?_
  have hrow : le 8 c.1 ++ le 8 c.2 = le 8 c.1 ++ (le 8 c.2 ++ []) := by simp
  have h₀ := slice_of_split (show _ = [] ++ (le 8 c.1 ++ _) from hrow)
    (show ([] : Bytes).length = 0 from rfl)
  have h₁ := slice_of_split hrow (le_length 8 c.1)
  rw [le_length] at h₀ h₁
  rw [Function.comp_apply, h₀, h₁, fromLe_le_of_lt (hkeys c hc), fromLe_le_of_lt (hbids c hc)]
  rfl

/-! ## Subnode trees as written -/

/-- The SLBLOCK `bid` holds `entries`. -/
structure SlBlock (w : NdbWriter) (bid : Nat) (entries : List SubnodeEntry) : Prop where
  some : bid ≠ 0
  lt : bid < 256 ^ 8
  held : Holds w bid (slBlockData entries)
  reads : slEntries (slBlockData entries) = entries

theorem SlBlock.mono {w w' : NdbWriter} {bid : Nat} {entries : List SubnodeEntry}
    (h : SlBlock w bid entries) (hg : Grows w w') : SlBlock w' bid entries :=
  ⟨h.some, h.lt, h.held.mono hg, h.reads⟩

/-- One SLBLOCK, or an SIBLOCK whose keys are the first NIDs of its SLBLOCKs. -/
inductive SubnodeTree (w : NdbWriter) (bid : Nat) : List SubnodeEntry → Prop
  | leaf {entries : List SubnodeEntry} (block : SlBlock w bid entries) : SubnodeTree w bid entries
  | index {children : List ((Nat × Nat) × List SubnodeEntry)} (some : bid ≠ 0) (lt : bid < 256 ^ 8)
      (held : Holds w bid (siBlockData (children.map Prod.fst)))
      (reads : siEntries (siBlockData (children.map Prod.fst)) = children.map Prod.fst)
      (below : ∀ c ∈ children, SlBlock w c.1.2 c.2)
      (keys : ∀ c ∈ children, Separates (fun c => c.1.1) Prod.snd SubnodeEntry.nid c) :
      SubnodeTree w bid (children.flatMap Prod.snd)

theorem SubnodeTree.root {w : NdbWriter} {bid : Nat} {entries : List SubnodeEntry}
    (h : SubnodeTree w bid entries) : bid ≠ 0 ∧ bid < 256 ^ 8 := by
  cases h with
  | leaf block => exact ⟨block.some, block.lt⟩
  | index some lt held reads below keys => exact ⟨some, lt⟩

/-- Walking the tree gives its entries. -/
theorem SubnodeTree.reads {w : NdbWriter} {bid : Nat} {entries : List SubnodeEntry}
    (h : SubnodeTree w bid entries) : SubnodesAt w bid entries := by
  intro store hc
  cases h with
  | leaf block =>
    rw [readSubnodes, if_neg block.some, hc _ _ block.held]
    exact congrArg some block.reads
  | @index children hsome _ held reads below _ =>
    have hchildren : siChildren (siBlockData (children.map Prod.fst)) =
        children.map fun c => c.1.2 := by
      rw [siChildren_eq, reads, List.map_map]
      rfl
    have hbelow := mapM_eq_some (l := children)
      (f := fun c : (Nat × Nat) × List SubnodeEntry => (store c.1.2).map slEntries)
      (g := Prod.snd) fun c hmem => by
        rw [hc _ _ (below c hmem).held, Option.map_some, (below c hmem).reads]
    rw [readSubnodes, if_neg hsome, hc _ _ held]
    show (do
      let below ← (siChildren (siBlockData (children.map Prod.fst))).mapM _
      pure below.flatten) = some _
    rw [hchildren, List.mapM_map]
    show (do
      let below ← children.mapM fun c => (store c.1.2).map slEntries
      pure below.flatten) = some _
    rw [hbelow, List.flatMap_def]
    rfl

/-- One SLBLOCK. -/
theorem emitSl_block {entries : List SubnodeEntry} {w w' : NdbWriter} {bid : Nat}
    (h : emitSl entries w = .ok bid w') (hs : Sound w) (hfits : ∀ e ∈ entries, e.Fits) :
    Grows w w' ∧ SlBlock w' bid entries := by
  obtain ⟨hg, hheld, hint, hlen⟩ := emitBlock_holds h hs
  have hflat := length_flatMap_of_forall (l := entries) (n := 24)
    fun (e : SubnodeEntry) _ => show (le 8 e.nid ++ le 8 e.data ++ le 8 e.sub).length = 24 by simp
  simp only [slBlockData, List.length_append, List.length_cons, List.length_nil, le_length,
    hflat] at hlen
  unfold kMaxBlockData at hlen
  refine ⟨hg, ?_, hheld.bid_lt hg.sound, hheld, slEntries_slBlockData (by omega) hfits⟩
  rintro rfl
  cases hint

/-- The SLBLOCKs of a tree of two levels, one for each piece of the entries. -/
theorem emitSls_blocks {ps : List (List SubnodeEntry)} {children : List (Nat × Nat)}
    {w w' : NdbWriter}
    (h : each (fun piece => do
      let bid ← emitSl piece
      pure ((piece.headD {}).nid, bid)) ps w = .ok children w') (hs : Sound w)
    (hfits : ∀ p ∈ ps, ∀ e ∈ p, e.Fits) (hne : ∀ p ∈ ps, p ≠ []) :
    Grows w w' ∧ ∃ below : List ((Nat × Nat) × List SubnodeEntry),
      children = below.map Prod.fst ∧ below.map Prod.snd = ps ∧ ∀ c ∈ below,
        SlBlock w' c.1.2 c.2 ∧ Separates (fun c => c.1.1) Prod.snd SubnodeEntry.nid c :=
  -- the SLBLOCKs written so far hold the entries done so far
  each_rule
    (I := fun done results v => Grows w v ∧ ∃ below : List ((Nat × Nat) × List SubnodeEntry),
      results = below.map Prod.fst ∧ below.map Prod.snd = done ∧ ∀ c ∈ below,
        SlBlock v c.1.2 c.2 ∧ Separates (fun c => c.1.1) Prod.snd SubnodeEntry.nid c)
    (by
      rintro done results piece v child v' hmem ⟨hg, below, rfl, rfl, hbelow⟩ hone
      obtain ⟨bid, v₁, hemit, hpure⟩ := bind_eq_ok.1 hone
      obtain ⟨rfl, rfl⟩ := pure_eq_ok.1 hpure
      obtain ⟨hg', hblock⟩ := emitSl_block hemit hg.sound (hfits piece hmem)
      obtain ⟨first, rest, rfl⟩ := List.exists_cons_of_ne_nil (hne piece hmem)
      refine ⟨hg.trans hg', below ++ [((first.nid, bid), first :: rest)], by simp, by simp, ?_⟩
      intro c hc
      rcases List.mem_append.1 hc with hc | hc
      · exact ⟨(hbelow c hc).1.mono hg', (hbelow c hc).2⟩
      · rw [List.mem_singleton.1 hc]
        exact ⟨hblock, first, rest, rfl, rfl⟩)
    ⟨Grows.refl hs, [], rfl, rfl, fun _ hc => (List.not_mem_nil hc).elim⟩ h

/-- What `writeSubnodes` accepts fits one level of SLBLOCKs. -/
theorem length_le_of_passes {l : List SubnodeEntry}
    (h : (pieces kSlBlockFanout l).length ≤ kSiBlockFanout) : l.length ≤ 173400 := by
  have hfanout : kSlBlockFanout = 340 := rfl
  have hwidth : kSiBlockFanout = 510 := rfl
  rw [pieces_length, passes, hfanout, hwidth] at h
  omega

theorem writeSubnodes_tree {std : StdSort} {entries : List SubnodeEntry} {w w' : NdbWriter}
    {bid : Nat} (h : writeSubnodes std entries w = .ok bid w') (hs : Sound w)
    (hfits : ∀ e ∈ entries, e.Fits) (hsome : entries ≠ []) :
    Grows w w' ∧ entries.length ≤ 173400 ∧
      SubnodeTree w' bid (std.sort (byKey SubnodeEntry.nid) entries) := by
  have hfanout : kSlBlockFanout = 340 := rfl
  have hwidth : kSiBlockFanout = 510 := rfl
  rw [writeSubnodes, if_neg hsome] at h
  have hlen := std.length_sort (byKey SubnodeEntry.nid) entries
  have hsorted (e) (he : e ∈ std.sort (byKey SubnodeEntry.nid) entries) : e.Fits :=
    hfits e (std.mem_sort.1 he)
  generalize std.sort (byKey SubnodeEntry.nid) entries = sorted at h hlen hsorted ⊢
  rcases ite_eq_ok.1 h with ⟨hfew, h⟩ | ⟨_, h⟩
  · obtain ⟨hg, hblock⟩ := emitSl_block h hs hsorted
    exact ⟨hg, by omega, .leaf hblock⟩
  · obtain ⟨children, v, hrun, h⟩ := bind_eq_ok.1 h
    rcases ite_eq_ok.1 h with ⟨_, h⟩ | ⟨hfew, h⟩
    · obtain ⟨_, _, h, _⟩ := bind_eq_ok.1 h
      cases h
    have hpasses := not_lt.1 hfew
    have hfew' := hpasses
    rw [each_length hrun] at hpasses
    obtain ⟨hg, below, rfl, hpieces, hbelow⟩ := emitSls_blocks hrun hs
      (fun p hp e he => hsorted e (mem_of_mem_pieces (by decide) hp he))
      (fun p hp => List.length_pos_iff.1 (length_of_mem_pieces (by decide) hp).1)
    obtain ⟨hg', hheld, hint, _⟩ := emitBlock_holds h hg.sound
    have hkeys : ∀ c ∈ below.map Prod.fst, c.1 < 256 ^ 8 := by
      intro child hchild
      obtain ⟨c, hc, rfl⟩ := List.mem_map.1 hchild
      obtain ⟨_, first, rest, hshare, hkey⟩ := hbelow c hc
      have hmem : first ∈ sorted := by
        refine mem_of_mem_pieces (n := kSlBlockFanout) (p := c.2) (by decide) ?_ ?_
        · exact hpieces ▸ List.mem_map_of_mem hc
        · exact hshare ▸ List.mem_cons_self
      have hnid := (hsorted first hmem).nid
      dsimp only at hkey
      omega
    have hbids : ∀ c ∈ below.map Prod.fst, c.2 < 256 ^ 8 := by
      intro child hchild
      obtain ⟨c, hc, rfl⟩ := List.mem_map.1 hchild
      exact (hbelow c hc).1.lt
    have hflat : sorted = below.flatMap Prod.snd := by
      rw [List.flatMap_def, hpieces, pieces_flatten (by decide)]
    refine ⟨hg.trans hg', hlen ▸ length_le_of_passes hpasses, hflat ▸ .index ?_
      (hheld.bid_lt hg'.sound) hheld (siEntries_siBlockData (by omega) hkeys hbids)
      (fun c hc => (hbelow c hc).1.mono hg') fun c hc => (hbelow c hc).2⟩
    rintro rfl
    cases hint

/-- The subnode tree that is written reads back, in order of NID. -/
theorem writeSubnodes_reads {std : StdSort} {entries : List SubnodeEntry} {w w' : NdbWriter}
    {bid : Nat} (h : writeSubnodes std entries w = .ok bid w') (hs : Sound w)
    (hfits : ∀ e ∈ entries, e.Fits) :
    Grows w w' ∧ entries.length ≤ 173400 ∧ bid < 256 ^ 8 ∧
      SubnodesAt w' bid (std.sort (byKey SubnodeEntry.nid) entries) := by
  by_cases hsome : entries = []
  · rw [writeSubnodes, if_pos hsome] at h
    obtain ⟨rfl, rfl⟩ := pure_eq_ok.1 h
    rw [hsome]
    refine ⟨Grows.refl hs, Nat.zero_le _, by decide, fun store _ => ?_⟩
    rw [(std.perm _ []).eq_nil]
    rfl
  · obtain ⟨hg, hlen, htree⟩ := writeSubnodes_tree h hs hfits hsome
    exact ⟨hg, hlen, htree.root.2, htree.reads⟩

/-! ## The allocator -/

structure SubnodeAllocator where
  entries : List SubnodeEntry := []
  nextIndex : Nat := 1

namespace SubnodeAllocator

/-- A subnode built elsewhere. -/
def add (nid data sub : Nat) (s : SubnodeAllocator) : SubnodeAllocator :=
  { s with entries := s.entries ++ [⟨nid, data, sub⟩] }

/-- A data tree that is already written gets a NID. -/
def adopt (data : Nat) : Streaming SubnodeAllocator Nat := do
  let (w, s) ← get
  let nid := makeNid kNidTypeLtp s.nextIndex
  set (w, ({ entries := s.entries ++ [⟨nid, data, 0⟩], nextIndex := s.nextIndex + 1 } :
    SubnodeAllocator))
  return nid

/-- A value gets a data tree of its own and a NID. -/
def spill (data : Bytes) : Streaming SubnodeAllocator Nat := do
  let bid ← onNdb (writeData data)
  adopt bid

/-- The allocator after `adopt`. -/
def adopted (s : SubnodeAllocator) (data : Nat) : SubnodeAllocator where
  entries := s.entries ++ [⟨makeNid kNidTypeLtp s.nextIndex, data, 0⟩]
  nextIndex := s.nextIndex + 1

theorem adopt_eq_ok {data nid : Nat} {w w' : NdbWriter} {s s' : SubnodeAllocator} :
    adopt data (w, s) = .ok nid (w', s') ↔
      makeNid kNidTypeLtp s.nextIndex = nid ∧ w = w' ∧ s.adopted data = s' := by
  constructor
  · intro h
    cases h
    exact ⟨rfl, rfl, rfl⟩
  · rintro ⟨rfl, rfl, rfl⟩
    rfl

theorem spill_eq_ok {data : Bytes} {nid : Nat} {w w' : NdbWriter} {s s' : SubnodeAllocator} :
    spill data (w, s) = .ok nid (w', s') ↔
      ∃ bid, writeData data w = .ok bid w' ∧ makeNid kNidTypeLtp s.nextIndex = nid ∧
        s.adopted bid = s' := by
  unfold spill
  rw [bind_eq_ok]
  constructor
  · rintro ⟨bid, ⟨w₁, s₁⟩, hwrite, hadopt⟩
    obtain ⟨hdata, rfl⟩ := onNdb_eq_ok.1 hwrite
    obtain ⟨hnid, rfl, hs'⟩ := adopt_eq_ok.1 hadopt
    exact ⟨bid, hdata, hnid, hs'⟩
  · rintro ⟨bid, hwrite, hnid, hs'⟩
    exact ⟨bid, (w', s), onNdb_eq_ok.2 ⟨hwrite, rfl⟩, adopt_eq_ok.2 ⟨hnid, rfl, hs'⟩⟩

/-- What the allocator keeps. A NID is handed out twice only once the index has wrapped, and by
then `writeSubnodes` refuses the tree. -/
structure Ok (s : SubnodeAllocator) : Prop where
  fits : ∀ e ∈ s.entries, e.Fits
  next : s.nextIndex ≤ s.entries.length + 1
  spilled : ∀ e ∈ s.entries, nidType e.nid = kNidTypeLtp →
    ∃ k < s.nextIndex, e.nid = makeNid kNidTypeLtp k
  distinct : s.nextIndex ≤ 2 ^ 27 → (s.entries.map SubnodeEntry.nid).Nodup

theorem ok_new : Ok {} :=
  ⟨fun _ h => (List.not_mem_nil h).elim, le_rfl, fun _ h => (List.not_mem_nil h).elim,
    fun _ => List.nodup_nil⟩

theorem Ok.adopted {s : SubnodeAllocator} (hok : s.Ok) {data : Nat} (hdata : data < 256 ^ 8) :
    (s.adopted data).Ok := by
  have htype : nidType (makeNid kNidTypeLtp s.nextIndex) = kNidTypeLtp :=
    nidType_makeNid (by decide) _
  refine ⟨?_, ?_, ?_, ?_⟩
  · intro e he
    rcases List.mem_append.1 he with he | he
    · exact hok.fits e he
    · rw [List.mem_singleton.1 he]
      exact ⟨makeNid_lt _ _, hdata, (by decide : (0 : Nat) < 256 ^ 8)⟩
  · have hnext := hok.next
    simp only [SubnodeAllocator.adopted, List.length_append, List.length_singleton]
    omega
  · intro e he hltp
    rcases List.mem_append.1 he with he | he
    · obtain ⟨k, hk, heq⟩ := hok.spilled e he hltp
      exact ⟨k, Nat.lt_succ_of_lt hk, heq⟩
    · rw [List.mem_singleton.1 he]
      exact ⟨s.nextIndex, Nat.lt_succ_self _, rfl⟩
  · intro hsmall
    replace hsmall : s.nextIndex + 1 ≤ 2 ^ 27 := hsmall
    have hold := hok.distinct (by omega)
    rw [SubnodeAllocator.adopted, List.map_append, List.nodup_append]
    refine ⟨hold, List.nodup_singleton _, ?_⟩
    intro nid hnid nid' hnid'
    rw [List.map_singleton, List.mem_singleton] at hnid'
    obtain ⟨e, he, rfl⟩ := List.mem_map.1 hnid
    rintro heq
    rw [hnid'] at heq
    obtain ⟨k, hk, hek⟩ := hok.spilled e he (heq ▸ htype)
    rw [hek, makeNid_of_lt (by decide) (by omega), makeNid_of_lt (by decide) (by omega)] at heq
    dsimp only at heq
    omega

/-- A NID of another type, and not one already there. -/
theorem Ok.add {s : SubnodeAllocator} (hok : s.Ok) {nid data sub : Nat} (hnid : nid < 2 ^ 32)
    (hdata : data < 256 ^ 8) (hsub : sub < 256 ^ 8) (htype : nidType nid ≠ kNidTypeLtp)
    (hnew : nid ∉ s.entries.map SubnodeEntry.nid) : (s.add nid data sub).Ok := by
  refine ⟨?_, ?_, ?_, ?_⟩
  · intro e he
    rcases List.mem_append.1 he with he | he
    · exact hok.fits e he
    · rw [List.mem_singleton.1 he]
      exact ⟨hnid, hdata, hsub⟩
  · have hnext := hok.next
    simp only [SubnodeAllocator.add, List.length_append, List.length_singleton]
    omega
  · intro e he hltp
    rcases List.mem_append.1 he with he | he
    · exact hok.spilled e he hltp
    · rw [List.mem_singleton.1 he] at hltp
      exact absurd hltp htype
  · intro hsmall
    rw [SubnodeAllocator.add, List.map_append, List.nodup_append]
    refine ⟨hok.distinct hsmall, List.nodup_singleton _, ?_⟩
    intro nid' hnid' nid'' hnid''
    rw [List.map_singleton, List.mem_singleton] at hnid''
    rintro rfl
    rw [hnid''] at hnid'
    exact hnew hnid'

theorem Ok.nodup {s : SubnodeAllocator} (hok : s.Ok) (hcount : s.entries.length ≤ 173400) :
    (s.entries.map SubnodeEntry.nid).Nodup := by
  have hnext := hok.next
  exact hok.distinct (by omega)

end SubnodeAllocator

/-! ## What an HNID stands for -/

/-- The leaves that the HNID stands for in a node with these heap blocks and subnodes. -/
inductive Stored (w : NdbWriter) (blocks : List HeapBlock) (entries : List SubnodeEntry)
    (hnid : Nat) : List Bytes → Prop
  | heap {data : Bytes} (hitem : HasItem blocks hnid data) : Stored w blocks entries hnid [data]
  | subnode {e : SubnodeEntry} {leaves : List Bytes} (hmem : e ∈ entries) (hentry : e.nid = hnid)
      (htype : hnidIsHid hnid = false) (tree : Tree w e.data leaves) :
      Stored w blocks entries hnid leaves

theorem Stored.mono {w w' : NdbWriter} {blocks blocks' : List HeapBlock}
    {entries entries' : List SubnodeEntry} {hnid : Nat} {leaves : List Bytes}
    (hs : Stored w blocks entries hnid leaves) (hw : Grows w w')
    (hh : ∀ hid item, HasItem blocks hid item → HasItem blocks' hid item)
    (hsub : entries ⊆ entries') : Stored w' blocks' entries' hnid leaves := by
  cases hs with
  | heap hitem => exact .heap (hh _ _ hitem)
  | subnode hmem hentry htype tree => exact .subnode (hsub hmem) hentry htype (tree.mono hw)

theorem TreeAt.bid_lt {depth : Nat} {w : NdbWriter} {bid : Nat} {leaves : List Bytes}
    (h : TreeAt depth w bid leaves) (hs : Sound w) : bid < 256 ^ 8 := by
  have hread := h w.store hs.covers
  have hsome : (w.store bid).isSome := by
    cases hstore : w.store bid with
    | some data => rfl
    | none =>
      cases depth with
      | zero => simp [treeLeaves, hstore] at hread
      | succ depth => simp [treeLeaves, hstore] at hread
  obtain ⟨data, hdata⟩ := Option.isSome_iff_exists.1 hsome
  obtain ⟨e, hfind, _⟩ := Option.map_eq_some_iff.1 hdata
  obtain ⟨x, hx, hxe⟩ := List.mem_filterMap.1 (hs.blocks.mem_iff.2 (List.mem_of_find?_eq_some hfind))
  have hbid : e.bid = bid := by simpa using List.find?_some hfind
  have hfresh := hs.fresh x hx
  have hindex := hs.index_lt
  cases hkind : x.kind with
  | inl cb =>
    simp only [Written.entry, hkind, Option.some.injEq] at hxe
    rw [← hxe] at hbid
    dsimp only at hbid
    omega
  | inr ptype => simp only [Written.entry, hkind, reduceCtorEq] at hxe

/-- A value that goes to a subnode. -/
theorem SubnodeAllocator.spill_stored {data : Bytes} {nid : Nat} {w w' : NdbWriter}
    {s s' : SubnodeAllocator} (hrun : spill data (w, s) = .ok nid (w', s')) (hs : Sound w)
    (hok : s.Ok) :
    Grows w w' ∧ s'.Ok ∧ s.entries ⊆ s'.entries ∧ nid < 2 ^ 32 ∧
      ∀ blocks, Stored w' blocks s'.entries nid (leavesOf data) := by
  obtain ⟨bid, hwrite, rfl, rfl⟩ := spill_eq_ok.1 hrun
  obtain ⟨hg, htree⟩ := writeData_tree hwrite hs
  refine ⟨hg, hok.adopted (htree.bid_lt hg.sound), List.subset_append_left _ _, makeNid_lt _ _,
    fun blocks => .subnode (List.mem_append_right _ List.mem_cons_self) rfl ?_ htree⟩
  refine hnidIsHid_eq_false ?_
  rw [nidType_makeNid (by decide)]
  decide

end Pst
end Imap2Pst
