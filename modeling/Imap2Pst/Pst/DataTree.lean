import Imap2Pst.Pst.Session

/-!
# Pst.DataTree

Data trees with their shape: what a reader finds who also looks at the level and the byte count
of each XBLOCK and XXBLOCK.

* `readDataTree` — the tree under a BID.
* `dataTreeOf` — the tree of a value, from its octets alone; `dataTreeOf_shaped` says what it is.
* `data_tree_round_trip` — a value written whole, or one chunk at a time, reads as that tree.
-/

namespace Imap2Pst
namespace Pst

open CxxStd

/-! ## Trees -/

/-- The blocks under an XBLOCK or an XXBLOCK, with the byte counts these state. -/
inductive DataTree where
  | leaf (data : Bytes)
  | xblock (total : Nat) (leaves : List Bytes)
  | xxblock (total : Nat) (blocks : List (Nat × List Bytes))
  deriving DecidableEq, Repr

def DataTree.leaves : DataTree → List Bytes
  | .leaf data => [data]
  | .xblock _ leaves => leaves
  | .xxblock _ blocks => blocks.flatMap Prod.snd

/-- Every byte count is the number of octets stored below. -/
def DataTree.Counted : DataTree → Prop
  | .leaf _ => True
  | .xblock total leaves => total = leaves.flatten.length
  | .xxblock total blocks => total = (blocks.flatMap Prod.snd).flatten.length ∧
      ∀ b ∈ blocks, b.1 = b.2.flatten.length

/-- The tree of a value. -/
def dataTreeOf (data : Bytes) : DataTree :=
  let leaves := pieces kMaxBlockData data
  if leaves.length ≤ 1 then .leaf data
  else if leaves.length ≤ kXBlockFanout then .xblock data.length leaves
  else .xxblock data.length
    ((pieces kXBlockFanout leaves).map fun slice => (slice.flatten.length, slice))

/-- The tree holds the value, in leaves that are full but for the last. -/
structure Shaped (tree : DataTree) (data : Bytes) : Prop where
  whole : tree.leaves.flatten = data
  counted : tree.Counted
  full : ∀ leaf ∈ tree.leaves.dropLast, leaf.length = kMaxBlockData
  last : ∀ leaf ∈ tree.leaves, leaf.length ≤ kMaxBlockData

theorem flatMap_counted (slices : List (List Bytes)) :
    (slices.map fun slice => (slice.flatten.length, slice)).flatMap Prod.snd = slices.flatten := by
  rw [List.flatMap_def, List.map_map]
  exact congrArg List.flatten (List.map_id slices)

theorem passes_le_one {len step : Nat} (hstep : 0 < step) : passes len step ≤ 1 ↔ len ≤ step := by
  constructor
  · intro h
    by_contra hlt
    have hone := (lt_passes hstep).2 (show 1 * step < len by omega)
    omega
  · intro h
    exact passes_le hstep (by omega)

theorem shaped_of_leaves {tree : DataTree} {data : Bytes}
    (h : tree.leaves = pieces kMaxBlockData data) (hcounted : tree.Counted) :
    Shaped tree data := by
  refine ⟨?_, hcounted, ?_, ?_⟩
  · rw [h, pieces_flatten (by decide)]
  · rw [h]
    exact fun leaf => length_of_mem_dropLast_pieces (by decide)
  · rw [h]
    exact fun leaf hleaf => (length_of_mem_pieces (by decide) hleaf).2

theorem dataTreeOf_shaped (data : Bytes) : Shaped (dataTreeOf data) data := by
  have hpieces := pieces_flatten (show 0 < kMaxBlockData by decide) data
  unfold dataTreeOf
  by_cases hone : (pieces kMaxBlockData data).length ≤ 1
  · rw [if_pos hone]
    rw [pieces_length, passes_le_one (by decide)] at hone
    exact ⟨List.append_nil data, trivial, by simp [DataTree.leaves],
      by simpa [DataTree.leaves] using hone⟩
  rw [if_neg hone]
  by_cases hx : (pieces kMaxBlockData data).length ≤ kXBlockFanout
  · rw [if_pos hx]
    exact shaped_of_leaves rfl (congrArg List.length hpieces.symm)
  · rw [if_neg hx]
    have hleaves := flatMap_counted (pieces kXBlockFanout (pieces kMaxBlockData data))
    rw [pieces_flatten (by decide)] at hleaves
    refine shaped_of_leaves hleaves ⟨by rw [hleaves, hpieces], fun b hb => ?_⟩
    obtain ⟨slice, _, rfl⟩ := List.mem_map.1 hb
    rfl

/-! ## The reader -/

/-- An XBLOCK, at level 1, or an XXBLOCK, at level 2. -/
structure XBlock where
  level : Nat
  total : Nat
  children : List Nat
  deriving DecidableEq, Repr

def readXBlock (store : Store) (bid : Nat) : Option XBlock :=
  if bidIsInternal bid then do
    let data ← store bid
    if data.getD 0 0 = 0x01 then
      pure ⟨(data.getD 1 0).toNat, fromLe ((data.drop 4).take 4), xBlockChildren data⟩
    else none
  else none

def readLeaf (store : Store) (bid : Nat) : Option Bytes :=
  if bidIsInternal bid then none else store bid

/-- The byte count and the leaves of an XBLOCK. -/
def readSlice (store : Store) (bid : Nat) : Option (Nat × List Bytes) := do
  let x ← readXBlock store bid
  if x.level = 1 then do
    let leaves ← x.children.mapM (readLeaf store)
    pure (x.total, leaves)
  else none

def readDataTree (store : Store) (bid : Nat) : Option DataTree :=
  if bidIsInternal bid then do
    let x ← readXBlock store bid
    if x.level = 2 then do
      let blocks ← x.children.mapM (readSlice store)
      pure (.xxblock x.total blocks)
    else (readSlice store bid).map fun slice => .xblock slice.1 slice.2
  else (store bid).map .leaf

/-! ## What the writer leaves -/

/-- An XBLOCK or XXBLOCK with its header. -/
structure Branching (w : NdbWriter) (bid level total : Nat) (children : List Nat) : Prop where
  internal : bidIsInternal bid = true
  fits : bid < 256 ^ 8
  reads : ∀ store, Covers store w → readXBlock store bid = some ⟨level, total, children⟩

theorem emitXBlock_branching {children : List Nat} {level total : Nat} {w w' : NdbWriter}
    {bid : Nat} (h : emitXBlock children level total w = .ok bid w') (hs : Sound w)
    (hlevel : level < 256) (htotal : total < 2 ^ 32) (hbids : ∀ bid ∈ children, bid < 256 ^ 8) :
    Grows w w' ∧ Branching w' bid level total children := by
  obtain ⟨hg, hheld, hint, hlen⟩ := emitBlock_holds h hs
  refine ⟨hg, hint, hheld.bid_lt hg.sound, fun store hc => ?_⟩
  have hcount : children.length < 256 ^ 2 := by
    have hflat := length_flatMap_of_forall (l := children) fun bid _ => le_length 8 bid
    simp only [xBlockData, List.length_append, List.length_cons, List.length_nil, le_length,
      hflat] at hlen
    unfold kMaxBlockData at hlen
    omega
  have htype : (xBlockData children level total).getD 0 0 = 0x01 := rfl
  have hlevel' : ((xBlockData children level total).getD 1 0).toNat = level := by
    show level.toUInt8.toNat = level
    rw [UInt8.toNat_ofNat']
    exact Nat.mod_eq_of_lt hlevel
  have htotal' : fromLe (((xBlockData children level total).drop 4).take 4) = total := by
    have hdrop : (xBlockData children level total).drop 4 =
        le 4 total ++ children.flatMap (le 8) := by
      rw [xBlockData, List.append_assoc, List.drop_left' (by simp)]
    rw [hdrop, List.take_left' (le_length _ _), fromLe_le_of_lt htotal]
  rw [readXBlock, if_pos hint, hc _ _ hheld, Option.bind_eq_bind, Option.bind_some, if_pos htype,
    hlevel', htotal', xBlockChildren_xBlockData level total hcount hbids]
  rfl

theorem Branching.mono {w w' : NdbWriter} {bid level total : Nat} {children : List Nat}
    (h : Branching w bid level total children) (hg : Grows w w') :
    Branching w' bid level total children :=
  ⟨h.internal, h.fits, fun store hc => h.reads store (hc.of_grows hg)⟩

theorem Leaf.reads {w : NdbWriter} {bid : Nat} {data : Bytes} (h : Leaf w bid data) {store : Store}
    (hc : Covers store w) : readLeaf store bid = some data := by
  rw [readLeaf, h.external]
  exact hc _ _ h.held

theorem Branching.slice {w : NdbWriter} {bid total : Nat} {ps : List (Nat × Bytes)}
    (h : Branching w bid 1 total (ps.map Prod.fst)) (hps : ∀ p ∈ ps, Leaf w p.1 p.2)
    {store : Store} (hc : Covers store w) :
    readSlice store bid = some (total, ps.map Prod.snd) := by
  have hleaves := mapM_eq_some (f := fun p : Nat × Bytes => readLeaf store p.1) (g := Prod.snd)
    fun p hp => (hps p hp).reads hc
  rw [readSlice, h.reads store hc, Option.bind_eq_bind, Option.bind_some, if_pos rfl,
    List.mapM_map]
  simp only [Function.comp_def, hleaves]
  rfl

/-- The tree over leaves whose octets are counted to `totalBytes`, as the writer counts them. -/
def treeOver (totalBytes : Nat) (leaves : List Bytes) : DataTree :=
  if leaves.length ≤ kXBlockFanout then .xblock totalBytes leaves
  else .xxblock totalBytes ((pieces kXBlockFanout leaves).zipIdx.map fun (slice, k) =>
    (coveredBytes totalBytes (k * kXBlockFanout) slice.length, slice))

theorem coveredBytes_lt (totalBytes i n : Nat) : coveredBytes totalBytes i n < 2 ^ 32 :=
  Nat.mod_lt _ (by decide)

/-- What is said of a tree over many leaf blocks. -/
structure Assembled (w : NdbWriter) (bid totalBytes : Nat) (leaves : List Bytes) : Prop where
  small : totalBytes < 2 ^ 32
  reads : ∀ store, Covers store w → readDataTree store bid = some (treeOver totalBytes leaves)

theorem assembleDataTree_assembled {ps : List (Nat × Bytes)} {totalBytes : Nat} {w w' : NdbWriter}
    {bid : Nat} (h : assembleDataTree (ps.map Prod.fst) totalBytes w = .ok bid w') (hs : Sound w)
    (hmany : 1 < ps.length) (hps : ∀ p ∈ ps, Leaf w p.1 p.2) :
    Assembled w' bid totalBytes (ps.map Prod.snd) := by
  have hbids {qs : List (Nat × Bytes)} (hqs : ∀ q ∈ qs, q ∈ ps) :
      ∀ bid ∈ qs.map Prod.fst, bid < 256 ^ 8 := by
    intro bid hbid
    obtain ⟨q, hq, rfl⟩ := List.mem_map.1 hbid
    exact (hps q (hqs q hq)).held.bid_lt hs
  rw [assembleDataTree_of_many (by rwa [List.length_map])] at h
  rcases ite_eq_ok.1 h with ⟨_, h⟩ | ⟨htotal, h⟩
  · obtain ⟨_, _, h, _⟩ := bind_eq_ok.1 h
    cases h
  have hsmall : totalBytes < 2 ^ 32 := by omega
  refine ⟨hsmall, fun store hc => ?_⟩
  rw [List.length_map] at h
  rcases ite_eq_ok.1 h with ⟨hone, h⟩ | ⟨hone, h⟩
  · obtain ⟨hg, hx⟩ := emitXBlock_branching h hs (by decide) hsmall (hbids fun q hq => hq)
    have hslice := hx.slice (fun p hp => (hps p hp).mono hg) hc
    rw [readDataTree, if_pos hx.internal, hx.reads store hc, treeOver, List.length_map, if_pos hone,
      hslice]
    rfl
  · rw [pieces_map, ← List.map_zipIdx, each_map] at h
    obtain ⟨xblocks, v, hx, h⟩ := bind_eq_ok.1 h
    rcases ite_eq_ok.1 h with ⟨_, h⟩ | ⟨_, h⟩
    · obtain ⟨_, _, h, _⟩ := bind_eq_ok.1 h
      cases h
    -- the XBLOCKs written so far read as the slices done so far
    obtain ⟨hg, hfits, hreads⟩ := each_rule
      (I := fun (done : List (List (Nat × Bytes) × Nat)) results v => Grows w v ∧
        (∀ bid ∈ results, bid < 256 ^ 8) ∧ ∀ store, Covers store v →
          results.mapM (readSlice store) = some (done.map fun (slice, k) =>
            (coveredBytes totalBytes (k * kXBlockFanout) slice.length, slice.map Prod.snd)))
      (by
        rintro done results ⟨slice, k⟩ v bid v' hmem ⟨hg, hfits, hreads⟩ hrun
        dsimp only [Function.comp_apply, Prod.map_apply] at hrun
        have hslice : ∀ q ∈ slice, q ∈ ps := fun q hq =>
          mem_of_mem_pieces (by decide) (List.fst_mem_of_mem_zipIdx hmem) hq
        obtain ⟨hg', hx⟩ := emitXBlock_branching hrun hg.sound (by decide) (coveredBytes_lt _ _ _)
          (hbids hslice)
        refine ⟨hg.trans hg', ?_, fun store hc => ?_⟩
        · intro bid hbid
          rcases List.mem_append.1 hbid with hbid | hbid
          · exact hfits bid hbid
          · rw [List.mem_singleton.1 hbid]
            exact hx.fits
        · have hlast := hx.slice (fun q hq => (hps q (hslice q hq)).mono (hg.trans hg')) hc
          rw [List.mapM_append, hreads store (hc.of_grows hg'), List.map_append]
          rw [List.length_map] at hlast
          simp [hlast])
      ⟨Grows.refl hs, by simp, fun _ _ => rfl⟩ hx
    obtain ⟨hg', hxx⟩ := emitXBlock_branching h hg.sound (by decide) hsmall hfits
    have hblocks := hreads store (hc.of_grows hg')
    rw [readDataTree, if_pos hxx.internal, hxx.reads store hc, Option.bind_eq_bind,
      Option.bind_some, if_pos rfl, hblocks, treeOver, List.length_map, if_neg hone, pieces_map,
      ← List.map_zipIdx, List.map_map]
    simp [Function.comp_def]

/-- The counts by subtraction are the octets below each XBLOCK. -/
theorem coveredBytes_slice {data : Bytes} (hsmall : data.length < 2 ^ 32) {k : Nat}
    {slice : List Bytes} (h : (pieces kXBlockFanout (pieces kMaxBlockData data))[k]? = some slice) :
    coveredBytes data.length (k * kXBlockFanout) slice.length = slice.flatten.length := by
  obtain ⟨hk, hslice⟩ := List.getElem?_eq_some_iff.1 h
  rw [pieces_length, pieces_length] at hk
  have hbelow := (lt_passes (by decide)).1 ((lt_passes (by decide)).1 hk)
  rw [getElem_pieces, pieces_drop (by decide)] at hslice
  have hcount : slice.length =
      min kXBlockFanout (passes (data.length - k * kXBlockFanout * kMaxBlockData) kMaxBlockData) := by
    rw [← hslice, List.length_take, pieces_length, List.length_drop]
  have hbytes : slice.flatten.length = min (kXBlockFanout * kMaxBlockData)
      (data.length - k * kXBlockFanout * kMaxBlockData) := by
    rw [← hslice, pieces_take_flatten (by decide), List.length_take, List.length_drop]
  rw [hbytes, hcount, coveredBytes]
  have hsub : (data.length + wordSize - k * kXBlockFanout * kMaxBlockData) % wordSize =
      data.length - k * kXBlockFanout * kMaxBlockData := by
    rw [Nat.sub_add_comm hbelow.le, Nat.add_mod_right]
    exact Nat.mod_eq_of_lt ((Nat.sub_le _ _).trans_lt (hsmall.trans (by decide)))
  rw [hsub]
  generalize hrest : data.length - k * kXBlockFanout * kMaxBlockData = rest
  have hle : rest < 2 ^ 32 := by omega
  rw [Nat.mod_eq_of_lt ((Nat.min_le_right _ _).trans_lt hle), passes]
  unfold kMaxBlockData
  omega

theorem treeOver_pieces {data : Bytes} (hsmall : data.length < 2 ^ 32)
    (hmany : 1 < (pieces kMaxBlockData data).length) :
    treeOver data.length (pieces kMaxBlockData data) = dataTreeOf data := by
  unfold treeOver dataTreeOf
  rw [if_neg (not_le.2 hmany)]
  by_cases hx : (pieces kMaxBlockData data).length ≤ kXBlockFanout
  · rw [if_pos hx, if_pos hx]
  rw [if_neg hx, if_neg hx]
  refine congrArg _ (List.ext_getElem (by simp) fun k h₁ h₂ => ?_)
  rw [List.length_map] at h₂
  simp only [List.getElem_map, List.getElem_zipIdx, Nat.zero_add]
  rw [coveredBytes_slice hsmall (List.getElem?_eq_getElem h₂)]

/-! ## A value, whole and in chunks -/

/-- A value handed over one chunk at a time. -/
def streamData (data : Bytes) : Ndb Nat := do
  let leaves ← each writeLeafChunk (pieces kMaxBlockData data)
  assembleDataTree leaves data.length

/-- The tree under `bid` is that of the value, in the file as it is and when more is written. -/
structure RoundTrips (data : Bytes) (w : NdbWriter) (bid : Nat) : Prop where
  small : data.length < 2 ^ 32
  reads : ∀ store, Covers store w → readDataTree store bid = some (dataTreeOf data)
  stored : readDataTree w.store bid = some (dataTreeOf data)
  payloads : ∀ e ∈ w.bbt, e.cb ≤ kMaxBlockData

theorem Sound.payloads {w : NdbWriter} (hs : Sound w) : ∀ e ∈ w.bbt, e.cb ≤ kMaxBlockData := by
  intro e he
  obtain ⟨⟨bid, ib, image, kind⟩, hx, hentry⟩ := List.mem_filterMap.1 (hs.blocks.mem_iff.2 he)
  have hmade := hs.made _ hx
  cases kind with
  | inl cb =>
    obtain ⟨_, _, hcb, _⟩ := hmade
    cases hentry
    exact hcb
  | inr ptype => cases hentry

theorem roundTrips_of_leaf {data : Bytes} {w : NdbWriter} {bid : Nat} (hs : Sound w)
    (h : Leaf w bid data) (hle : data.length ≤ kMaxBlockData) : RoundTrips data w bid := by
  have hreads (store : Store) (hc : Covers store w) :
      readDataTree store bid = some (dataTreeOf data) := by
    have hone : (pieces kMaxBlockData data).length ≤ 1 := by
      rwa [pieces_length, passes_le_one (by decide)]
    rw [readDataTree, h.external, hc _ _ h.held, dataTreeOf, if_pos hone]
    rfl
  exact ⟨hle.trans_lt (by decide), hreads, hreads _ hs.covers, hs.payloads⟩

theorem streamData_roundTrips {data : Bytes} {w w' : NdbWriter} {bid : Nat}
    (h : streamData data w = .ok bid w') (hs : Sound w) : RoundTrips data w' bid := by
  obtain ⟨leaves, w₁, hleaves, h⟩ := bind_eq_ok.1 h
  obtain ⟨hg, ps, rfl, hps, hall⟩ := writeLeaves_leaf hleaves hs
  have hcount : ps.length = passes data.length kMaxBlockData := by
    rw [← pieces_length, ← hps, List.length_map]
  by_cases hle : data.length ≤ kMaxBlockData
  · by_cases hnone : data = []
    · subst hnone
      rw [pieces_nil (by decide)] at hps
      obtain rfl := List.map_eq_nil_iff.1 hps
      obtain ⟨hg', hleaf⟩ := writeLeafChunk_leaf h hg.sound
      exact roundTrips_of_leaf hg'.sound hleaf hle
    · rw [pieces_of_length_le hnone hle] at hps
      obtain ⟨p, rest, rfl, hp, hrest⟩ := List.map_eq_cons_iff.1 hps
      obtain rfl := List.map_eq_nil_iff.1 hrest
      obtain ⟨rfl, rfl⟩ := pure_eq_ok.1 h
      exact roundTrips_of_leaf hg.sound (hp ▸ hall p List.mem_cons_self) hle
  · have hmany : 1 < (pieces kMaxBlockData data).length := by
      rw [pieces_length]
      exact not_le.1 fun hone => hle ((passes_le_one (by decide)).1 hone)
    have hassembled := assembleDataTree_assembled h hg.sound
      (by rwa [hcount, ← pieces_length]) hall
    have hs' := (assembleDataTree_grows _ _ w₁ bid w' h hg.sound).sound
    have htree := treeOver_pieces hassembled.small hmany
    have hreads (store : Store) (hc : Covers store w') :
        readDataTree store bid = some (dataTreeOf data) := by
      rw [hassembled.reads store hc, hps, htree]
    exact ⟨hassembled.small, hreads, hreads _ hs'.covers, hs'.payloads⟩

theorem writeData_roundTrips {data : Bytes} {w w' : NdbWriter} {bid : Nat}
    (h : writeData data w = .ok bid w') (hs : Sound w) : RoundTrips data w' bid := by
  by_cases hle : data.length ≤ kMaxBlockData
  · rw [writeData, if_pos hle] at h
    obtain ⟨hg, hleaf⟩ := writeLeafChunk_leaf h hs
    exact roundTrips_of_leaf hg.sound hleaf hle
  · rw [writeData, if_neg hle] at h
    exact streamData_roundTrips h hs

/-- Whatever was written before, a value that is written, whole or in chunks, reads back as one
and the same tree; on a stream that does not fail it is written when it has fewer than 2 ^ 32
octets. -/
theorem data_tree_round_trip {std : StdSort} {ops : List NdbOp} {fate : Nat → Bool}
    {w : NdbWriter} {u : Unit} (h : opened std ops { fate } = .ok u w) (data : Bytes) :
    (∀ bid w', writeData data w = .ok bid w' → RoundTrips data w' bid) ∧
    (∀ bid w', streamData data w = .ok bid w' → RoundTrips data w' bid) ∧
    Shaped (dataTreeOf data) data ∧
    ((∀ k, fate k = true) → w.bbt.length < 2 ^ 32 → data.length < 2 ^ 32 →
      (∃ bid w', writeData data w = .ok bid w') ∧ ∃ bid w', streamData data w = .ok bid w') := by
  have hs := (opened_open h).sound
  refine ⟨fun bid w' hrun => writeData_roundTrips hrun hs,
    fun bid w' hrun => streamData_roundTrips hrun hs, dataTreeOf_shaped data, ?_⟩
  intro hfate hfew hsmall
  obtain rfl : fate = fun _ => true := funext hfate
  have hleaves : passes data.length kMaxBlockData ≤ 2 ^ 32 :=
    passes_le (by decide) (hsmall.le.trans (Nat.le_mul_of_pos_right _ (by decide)))
  have hroom := ((opened_ready h).pages hfew
    (n := 2 * passes data.length kMaxBlockData + 0 + 3) (by omega)).1
  obtain ⟨bid, w', hrun, -⟩ := @writeData_returns 0 data w hroom (by omega)
  obtain ⟨bid', w'', hrun', -⟩ := @leaves_returns 0 data w (hroom.le (by omega)) (by omega)
  exact ⟨⟨bid, w', hrun⟩, bid', w'', hrun'⟩

theorem two_leaves_round_trip : ∃ w, opened .insertion [] { fate := fun _ => true } = .ok () w ∧
    ∃ bid w', writeData (List.replicate 9000 7) w = .ok bid w' ∧
      RoundTrips (List.replicate 9000 7) w' bid := by
  obtain ⟨_, w, hrun, hstart, _⟩ := openWriter_returns
  have h : opened .insertion [] { fate := fun _ => true } = .ok () w :=
    bind_eq_ok.2 ⟨(), w, hrun, rfl⟩
  have htrip := data_tree_round_trip h (List.replicate 9000 7)
  have hfew : w.bbt.length < 2 ^ 32 := by
    rw [hstart.bbt]
    decide
  obtain ⟨⟨bid, w', hwrite⟩, -⟩ := htrip.2.2.2 (fun _ => rfl) hfew
    (by rw [List.length_replicate]; decide)
  exact ⟨w, h, bid, w', hwrite, htrip.1 bid w' hwrite⟩

end Pst
end Imap2Pst
