import Imap2Pst.Pst.Layout
import Imap2Pst.Std.Rows
import Mathlib.Data.Nat.Bitwise

/-!
# Pst.Trees

The block store as a reader sees it, and the data trees in it. A reader is given a `Store`, the
payload of each BID; `Covers` says that a store has every block written so far, so what is shown
to be readable stays readable while more is written.

* `readTree` — the leaves of a data tree, through an XBLOCK or an XXBLOCK.
* `assembleDataTree_tree`, `writeData_tree` — the trees the writer makes read back.
-/

namespace Imap2Pst
namespace Pst

open CxxStd

/-! ## The store -/

/-- What a reader finds under a BID. -/
abbrev Store := Nat → Option Bytes

/-- The blocks of a file, through the block table. -/
def NdbWriter.store (w : NdbWriter) : Store := fun bid =>
  (w.bbt.find? fun e => e.bid = bid).map fun e => w.file.read e.ib e.cb

/-- A block of this BID and payload was written. -/
def Holds (w : NdbWriter) (bid : Nat) (data : Bytes) : Prop :=
  ∃ ib, ⟨bid, ib, blockImage data ib bid, .inl data.length⟩ ∈ w.history

def Covers (store : Store) (w : NdbWriter) : Prop :=
  ∀ bid data, Holds w bid data → store bid = some data

theorem Holds.mono {w w' : NdbWriter} {bid : Nat} {data : Bytes} (h : Holds w bid data)
    (hg : Grows w w') : Holds w' bid data := by
  obtain ⟨ib, hmem⟩ := h
  exact ⟨ib, hg.history.subset hmem⟩

theorem Covers.of_grows {store : Store} {w w' : NdbWriter} (h : Covers store w')
    (hg : Grows w w') : Covers store w := fun bid data hd => h bid data (hd.mono hg)

theorem Holds.bid_lt {w : NdbWriter} {bid : Nat} {data : Bytes} (h : Holds w bid data)
    (hs : Sound w) : bid < 256 ^ 8 := by
  obtain ⟨ib, hmem⟩ := h
  have hfresh := hs.fresh _ hmem
  have hindex := hs.index_lt
  dsimp only at hfresh
  omega

theorem Sound.bids_nodup {w : NdbWriter} (hs : Sound w) : (w.history.map Written.bid).Nodup := by
  refine List.pairwise_map.2 (hs.ascending.imp fun {x y} hlt heq => ?_)
  rw [heq] at hlt
  exact lt_irrefl _ hlt

theorem Sound.covers {w : NdbWriter} (hs : Sound w) : Covers w.store w := by
  intro bid data ⟨ib, hmem⟩
  have hentry : ⟨bid, ib, data.length⟩ ∈ w.bbt :=
    hs.blocks.mem_iff.1 (List.mem_filterMap.2 ⟨_, hmem, rfl⟩)
  have hsome : (w.bbt.find? fun e => e.bid = bid).isSome :=
    List.find?_isSome.2 ⟨_, hentry, decide_eq_true rfl⟩
  obtain ⟨e, hfind⟩ := Option.isSome_iff_exists.1 hsome
  have hbid : e.bid = bid := by simpa using List.find?_some hfind
  obtain ⟨x, hx, hxe⟩ := List.mem_filterMap.1 (hs.blocks.mem_iff.2 (List.mem_of_find?_eq_some hfind))
  -- no two blocks share a BID
  have hsame : x.bid = e.bid := by
    cases hkind : x.kind with
    | inl cb => simp only [Written.entry, hkind, Option.some.injEq] at hxe; rw [← hxe]
    | inr ptype => simp only [Written.entry, hkind, reduceCtorEq] at hxe
  cases List.inj_on_of_nodup_map hs.bids_nodup hx hmem (hsame.trans hbid)
  have he : e = ⟨bid, ib, data.length⟩ := (Option.some.inj hxe).symm
  have hread := File.read_middle (a := []) (b := data) (c := List.replicate _ 0 ++ _)
    ((hs.kept _ hmem).trans (by simp only [blockImage, List.nil_append, List.append_assoc]; rfl))
  rw [NdbWriter.store, hfind, he]
  exact congrArg some hread

/-! ## Data trees -/

/-- The BIDs an XBLOCK or an XXBLOCK lists. -/
def xBlockChildren (data : Bytes) : List Nat :=
  (List.range (fromLe ((data.drop 2).take 2))).map fun i =>
    fromLe ((data.drop (8 + i * 8)).take 8)

/-- The leaves of the data tree under a block; `depth` bounds its levels. -/
def treeLeaves (store : Store) : Nat → Nat → Option (List Bytes)
  | 0, bid => if bidIsInternal bid then none else (store bid).map fun data => [data]
  | depth + 1, bid =>
    if bidIsInternal bid then do
      let data ← store bid
      let below ← (xBlockChildren data).mapM (treeLeaves store depth)
      pure below.flatten
    else (store bid).map fun data => [data]

/-- A data tree has at most an XXBLOCK, XBLOCKs and leaves. -/
def readTree (store : Store) (bid : Nat) : Option (List Bytes) := treeLeaves store 2 bid

/-- The tree under `bid` reads as `leaves`, now and when more has been written. -/
def TreeAt (depth : Nat) (w : NdbWriter) (bid : Nat) (leaves : List Bytes) : Prop :=
  ∀ store, Covers store w → treeLeaves store depth bid = some leaves

abbrev Tree (w : NdbWriter) (bid : Nat) (leaves : List Bytes) : Prop := TreeAt 2 w bid leaves

theorem TreeAt.mono {depth : Nat} {w w' : NdbWriter} {bid : Nat} {leaves : List Bytes}
    (h : TreeAt depth w bid leaves) (hg : Grows w w') : TreeAt depth w' bid leaves :=
  fun store hc => h store (hc.of_grows hg)

/-- A leaf block. -/
structure Leaf (w : NdbWriter) (bid : Nat) (data : Bytes) : Prop where
  held : Holds w bid data
  external : bidIsInternal bid = false

theorem Leaf.mono {w w' : NdbWriter} {bid : Nat} {data : Bytes} (h : Leaf w bid data)
    (hg : Grows w w') : Leaf w' bid data := ⟨h.held.mono hg, h.external⟩

theorem Leaf.tree {w : NdbWriter} {bid : Nat} {data : Bytes} (h : Leaf w bid data) (depth : Nat) :
    TreeAt depth w bid [data] := by
  intro store hc
  have hread := hc _ _ h.held
  cases depth with
  | zero => simp [treeLeaves, h.external, hread]
  | succ depth => simp [treeLeaves, h.external, hread]

theorem bidIsInternal_makeBid {index : Nat} (h : index < 2 ^ 62) (internal : Bool) :
    bidIsInternal (makeBid index internal) = internal := by
  rw [makeBid_of_lt h]
  have hbit (n : Nat) : n &&& 2 = if n.testBit 1 then 2 else 0 := by
    have h := Nat.and_two_pow n 1
    cases hb : n.testBit 1 <;> simpa [hb] using h
  have hdiv (n : Nat) : n.testBit 1 = decide (n / 2 % 2 = 1) := by
    simp [Nat.testBit_succ, Nat.testBit_zero]
  unfold bidIsInternal
  rw [hbit, hdiv]
  cases internal with
  | false => rw [if_neg (by simp; omega)]; rfl
  | true => rw [if_pos (by simp; omega)]; rfl

/-- What `emitBlock` leaves in the store. -/
theorem emitBlock_holds {data : Bytes} {internal : Bool} {w w' : NdbWriter} {bid : Nat}
    (h : emitBlock data internal w = .ok bid w') (hs : Sound w) :
    Grows w w' ∧ Holds w' bid data ∧ bidIsInternal bid = internal ∧
      data.length ≤ kMaxBlockData := by
  obtain ⟨_, hlen, hbid, ib, hhist, _⟩ := emitBlock_spec h hs
  refine ⟨emitBlock_grows data internal w bid w' h hs, ⟨ib, ?_⟩, ?_, hlen⟩
  · rw [hhist]
    exact List.mem_append_right _ List.mem_cons_self
  · rw [hbid, bidIsInternal_makeBid hs.index_lt]

theorem writeLeafChunk_leaf {data : Bytes} {w w' : NdbWriter} {bid : Nat}
    (h : writeLeafChunk data w = .ok bid w') (hs : Sound w) : Grows w w' ∧ Leaf w' bid data := by
  obtain ⟨hg, hheld, hext, _⟩ := emitBlock_holds h hs
  exact ⟨hg, hheld, hext⟩

theorem xBlockChildren_xBlockData {children : List Nat} (level totalBytes : Nat)
    (hcount : children.length < 256 ^ 2) (hbids : ∀ bid ∈ children, bid < 256 ^ 8) :
    xBlockChildren (xBlockData children level totalBytes) = children := by
  have hhead : ((xBlockData children level totalBytes).drop 2).take 2 = le 2 children.length := by
    simp [xBlockData]
  have hrows : (xBlockData children level totalBytes).drop 8 = children.flatMap (le 8) := by
    simp [xBlockData, List.drop_append]
  rw [xBlockChildren, hhead, fromLe_le_of_lt hcount]
  apply List.ext_getElem
  · simp
  · intro i h₁ h₂
    rw [List.getElem_map, List.getElem_range, ← List.drop_drop, hrows,
      drop_take_flatMap (fun bid _ => le_length 8 bid) h₂,
      fromLe_le_of_lt (hbids _ (List.getElem_mem h₂))]

theorem mapM_eq_some {α β : Type} {f : α → Option β} {g : α → β} {l : List α}
    (h : ∀ a ∈ l, f a = some (g a)) : l.mapM f = some (l.map g) := by
  induction l with
  | nil => rfl
  | cons a l ih =>
    rw [List.mapM_cons, h a (by simp), ih fun b hb => h b (by simp [hb])]
    rfl

/-- One more level over trees that read back. -/
theorem emitXBlock_tree {depth level totalBytes : Nat} {ps : List (Nat × List Bytes)}
    {w w' : NdbWriter} {bid : Nat}
    (h : emitXBlock (ps.map Prod.fst) level totalBytes w = .ok bid w') (hs : Sound w)
    (hps : ∀ p ∈ ps, TreeAt depth w p.1 p.2 ∧ p.1 < 256 ^ 8) :
    Grows w w' ∧ TreeAt (depth + 1) w' bid (ps.flatMap Prod.snd) ∧ bid < 256 ^ 8 := by
  obtain ⟨hg, hheld, hint, hlen⟩ := emitBlock_holds h hs
  refine ⟨hg, ?_, hheld.bid_lt hg.sound⟩
  have hcount : (ps.map Prod.fst).length < 256 ^ 2 := by
    have hflat := length_flatMap_of_forall (l := ps.map Prod.fst) fun bid _ => le_length 8 bid
    simp only [xBlockData, List.length_append, List.length_cons, List.length_nil, le_length,
      hflat] at hlen
    unfold kMaxBlockData at hlen
    omega
  intro store hc
  have hbelow := mapM_eq_some (f := fun p : Nat × List Bytes => treeLeaves store depth p.1)
    (g := Prod.snd) fun p hp => (hps p hp).1 store (hc.of_grows hg)
  have hchildren := xBlockChildren_xBlockData level totalBytes hcount
    (by simpa using fun a b hp => (hps (a, b) hp).2)
  simp only [treeLeaves, hint, if_true, hc _ _ hheld, Option.bind_eq_bind, Option.bind_some,
    hchildren, List.mapM_map, Function.comp_def, hbelow]
  rw [List.flatMap_def]
  rfl

theorem map_fst_leafShares (ps : List (Nat × Bytes)) :
    (ps.map fun p => (p.1, [p.2])).map Prod.fst = ps.map Prod.fst := by simp

theorem flatMap_snd_leafShares (ps : List (Nat × Bytes)) :
    (ps.map fun p => (p.1, [p.2])).flatMap Prod.snd = ps.map Prod.snd := by
  induction ps with
  | nil => rfl
  | cons p ps ih => rw [List.map_cons, List.flatMap_cons, ih]; rfl

/-- Two leaves or more: an XBLOCK over them, or an XXBLOCK over XBLOCKs. -/
theorem assembleDataTree_of_many {leaves : List Nat} {totalBytes : Nat}
    (h : 1 < leaves.length) : assembleDataTree leaves totalBytes = (do
      if 0xFFFFFFFF < totalBytes then throw ⟨"data tree larger than 4 GiB"⟩
      if leaves.length ≤ kXBlockFanout then emitXBlock leaves 1 totalBytes
      else
        let xblocks ← each
          (fun (slice, k) =>
            emitXBlock slice 1 (coveredBytes totalBytes (k * kXBlockFanout) slice.length))
          (pieces kXBlockFanout leaves).zipIdx
        if kXBlockFanout < xblocks.length then
          throw ⟨"data tree needs more than two levels; not supported"⟩
        emitXBlock xblocks 2 totalBytes) := by
  cases leaves with
  | nil => cases h
  | cons leaf leaves =>
    cases leaves with
    | nil => exact absurd h (lt_irrefl 1)
    | cons leaf' leaves => rfl

/-- A data tree over leaf blocks reads as their payloads, in order. -/
theorem assembleDataTree_tree {ps : List (Nat × Bytes)} {totalBytes : Nat} {w w' : NdbWriter}
    {bid : Nat} (h : assembleDataTree (ps.map Prod.fst) totalBytes w = .ok bid w') (hs : Sound w)
    (hsome : ps ≠ []) (hps : ∀ p ∈ ps, Leaf w p.1 p.2) :
    Grows w w' ∧ Tree w' bid (ps.map Prod.snd) := by
  refine ⟨assembleDataTree_grows _ _ w bid w' h hs, ?_⟩
  have hlevel (depth : Nat) {v : NdbWriter} (hg : Grows w v) {qs : List (Nat × Bytes)}
      (hqs : ∀ q ∈ qs, q ∈ ps) (q) (hq : q ∈ qs.map fun q => (q.1, [q.2])) :
      TreeAt depth v q.1 q.2 ∧ q.1 < 256 ^ 8 := by
    obtain ⟨p, hp, rfl⟩ := List.mem_map.1 hq
    have hleaf := hps p (hqs p hp)
    exact ⟨(hleaf.tree depth).mono hg, hleaf.held.bid_lt hs⟩
  by_cases hone : ps.length = 1
  · obtain ⟨p, rfl⟩ := List.length_eq_one_iff.1 hone
    obtain ⟨rfl, rfl⟩ := pure_eq_ok.1 h
    exact (hps p (by simp)).tree 2
  have hlen : 1 < (ps.map Prod.fst).length := by
    have hpos := List.length_pos_iff.2 hsome
    rw [List.length_map]
    omega
  rw [assembleDataTree_of_many hlen] at h
  rcases ite_eq_ok.1 h with ⟨_, h⟩ | ⟨_, h⟩
  · obtain ⟨_, _, h, _⟩ := bind_eq_ok.1 h
    cases h
  rcases ite_eq_ok.1 h with ⟨_, h⟩ | ⟨_, h⟩
  · rw [← map_fst_leafShares] at h
    have hread := (emitXBlock_tree h hs (hlevel 1 (Grows.refl hs) fun q hq => hq)).2.1
    rwa [flatMap_snd_leafShares] at hread
  · rw [pieces_map, ← List.map_zipIdx, each_map] at h
    obtain ⟨xblocks, v, hx, h⟩ := bind_eq_ok.1 h
    rcases ite_eq_ok.1 h with ⟨_, h⟩ | ⟨_, h⟩
    · obtain ⟨_, _, h, _⟩ := bind_eq_ok.1 h
      cases h
    -- the XBLOCKs written so far read as the slices done so far
    obtain ⟨hg, qs, rfl, hqs, hflat⟩ := each_rule
      (I := fun done results v => Grows w v ∧ ∃ qs : List (Nat × List Bytes),
        results = qs.map Prod.fst ∧ (∀ q ∈ qs, TreeAt 1 v q.1 q.2 ∧ q.1 < 256 ^ 8) ∧
        qs.flatMap Prod.snd = (done.flatMap Prod.fst).map Prod.snd)
      (by
        rintro done results ⟨slice, k⟩ v bid v' hmem ⟨hg, qs, rfl, hqs, hflat⟩ hrun
        dsimp only [Function.comp_apply, Prod.map_apply] at hrun
        rw [← map_fst_leafShares] at hrun
        have hslice : ∀ q ∈ slice, q ∈ ps := fun q hq =>
          mem_of_mem_pieces (by decide) (List.fst_mem_of_mem_zipIdx hmem) hq
        obtain ⟨hg', hread, hbid⟩ := emitXBlock_tree hrun hg.sound (hlevel 0 hg hslice)
        rw [flatMap_snd_leafShares] at hread
        refine ⟨hg.trans hg', qs ++ [(bid, slice.map Prod.snd)], by simp, ?_, ?_⟩
        · intro q hq
          rcases List.mem_append.1 hq with hq | hq
          · exact ⟨(hqs q hq).1.mono hg', (hqs q hq).2⟩
          · rw [List.mem_singleton.1 hq]
            exact ⟨hread, hbid⟩
        · simp [hflat])
      ⟨Grows.refl hs, [], rfl, by simp, rfl⟩ hx
    have hread := (emitXBlock_tree h hg.sound hqs).2.1
    rwa [hflat, List.flatMap_def, List.zipIdx_map_fst, pieces_flatten (by decide)] at hread

/-- The same, for BIDs and payloads in lists of their own. -/
theorem assembleDataTree_reads {bids : List Nat} {payloads : List Bytes} {totalBytes : Nat}
    {w w' : NdbWriter} {bid : Nat} (h : assembleDataTree bids totalBytes w = .ok bid w')
    (hs : Sound w) (hsome : bids ≠ []) (hlen : bids.length = payloads.length)
    (hleaf : ∀ (k b : Nat) (p : Bytes), bids[k]? = some b → payloads[k]? = some p → Leaf w b p) :
    Grows w w' ∧ Tree w' bid payloads := by
  have hfst : (bids.zip payloads).map Prod.fst = bids := List.map_fst_zip hlen.le
  have hsnd : (bids.zip payloads).map Prod.snd = payloads := List.map_snd_zip hlen.ge
  rw [← hfst] at h
  have htree := assembleDataTree_tree h hs ?_ ?_
  · rwa [hsnd] at htree
  · rintro hnil
    rw [hnil] at hfst
    exact hsome hfst.symm
  · rintro ⟨b, p⟩ hmem
    obtain ⟨k, hk, hget⟩ := List.mem_iff_getElem.1 hmem
    rw [List.getElem_zip] at hget
    cases hget
    rw [List.length_zip] at hk
    exact hleaf k _ _ (List.getElem?_eq_getElem (by omega)) (List.getElem?_eq_getElem (by omega))

/-- The leaves of the data tree of a value; an empty value has one empty leaf. -/
def leavesOf (data : Bytes) : List Bytes :=
  if data = [] then [[]] else pieces kMaxBlockData data

theorem leavesOf_flatten (data : Bytes) : (leavesOf data).flatten = data := by
  unfold leavesOf
  split
  · rename_i h
    rw [h]
    rfl
  · exact pieces_flatten (by decide) data

/-- Leaf blocks written one after the other. -/
theorem writeLeaves_leaf {chunks : List Bytes} {w w' : NdbWriter} {bids : List Nat}
    (h : each writeLeafChunk chunks w = .ok bids w') (hs : Sound w) :
    Grows w w' ∧ ∃ ps : List (Nat × Bytes), bids = ps.map Prod.fst ∧ ps.map Prod.snd = chunks ∧
      ∀ p ∈ ps, Leaf w' p.1 p.2 := by
  refine each_rule
    (I := fun done results v => Grows w v ∧ ∃ ps : List (Nat × Bytes), results = ps.map Prod.fst ∧
      ps.map Prod.snd = done ∧ ∀ p ∈ ps, Leaf v p.1 p.2) ?_ ⟨Grows.refl hs, [], by simp⟩ h
  rintro done results chunk v bid v' _ ⟨hg, ps, rfl, rfl, hps⟩ hrun
  obtain ⟨hg', hleaf⟩ := writeLeafChunk_leaf hrun hg.sound
  refine ⟨hg.trans hg', ps ++ [(bid, chunk)], by simp, by simp, ?_⟩
  intro p hp
  rcases List.mem_append.1 hp with hp | hp
  · exact (hps p hp).mono hg'
  · rw [List.mem_singleton.1 hp]
    exact hleaf

/-- A value written to a data tree of its own reads back. -/
theorem writeData_tree {data : Bytes} {w w' : NdbWriter} {bid : Nat}
    (h : writeData data w = .ok bid w') (hs : Sound w) :
    Grows w w' ∧ Tree w' bid (leavesOf data) := by
  unfold writeData at h
  by_cases hle : data.length ≤ kMaxBlockData
  · rw [if_pos hle] at h
    obtain ⟨hg, hleaf⟩ := writeLeafChunk_leaf h hs
    have hleaves : leavesOf data = [data] := by
      unfold leavesOf
      split
      · rename_i hnil
        rw [hnil]
      · rename_i hsome
        exact pieces_of_length_le hsome hle
    exact ⟨hg, hleaves ▸ hleaf.tree 2⟩
  · rw [if_neg hle] at h
    have hsome : data ≠ [] := by
      rintro rfl
      exact hle (Nat.zero_le _)
    obtain ⟨leaves, w₁, hleaves, h⟩ := bind_eq_ok.1 h
    obtain ⟨hg, ps, rfl, hps, hall⟩ := writeLeaves_leaf hleaves hs
    have hne : ps ≠ [] := by
      rintro rfl
      rw [pieces_eq_cons (by decide) hsome] at hps
      cases hps
    obtain ⟨hg', htree⟩ := assembleDataTree_tree h hg.sound hne hall
    rw [hps] at htree
    rw [leavesOf, if_neg hsome]
    exact ⟨hg.trans hg', htree⟩

end Pst
end Imap2Pst
