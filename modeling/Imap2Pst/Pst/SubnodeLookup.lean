import Imap2Pst.Pst.DataTree
import Imap2Pst.Pst.Subnodes

/-!
# Pst.SubnodeLookup

Lookup in a subnode tree by NID, and the whole of `writeSubnodes`: what it returns, what a reader
finds there, and when it throws.

* `findSubnode`             — the descent by the last key that is not above the NID.
* `writeSubnodes_returns`   — up to 340 * 510 entries, a tree is written.
* `subnode_tree_round_trip` — whatever was written before.
-/

namespace Imap2Pst
namespace Pst

open CxxStd

/-! ## The descent -/

/-- The entry of an SLBLOCK with a NID. -/
def findEntry (nid : Nat) (entries : List SubnodeEntry) : Option SubnodeEntry :=
  entries.find? fun e => e.nid = nid

/-- The entry of a subnode tree with a NID: an SIBLOCK is left by the last child whose key is not
above it. -/
def findSubnode (store : Store) (bid nid : Nat) : Option SubnodeEntry :=
  if bid = 0 then none
  else do
    let data ← store bid
    if data.getD 0 0 ≠ 0x02 then none
    else if data.getD 1 0 = 0 then findEntry nid (slEntries data)
    else
      let child ← floorEntry Prod.fst (siEntries data) nid
      let below ← store child.2
      findEntry nid (slEntries below)

theorem SubnodeTree.finds {w : NdbWriter} {bid : Nat} {entries : List SubnodeEntry}
    (h : SubnodeTree w bid entries) (hsorted : entries.Pairwise fun a b => a.nid < b.nid)
    {store : Store} (hc : Covers store w) (nid : Nat) :
    findSubnode store bid nid = findEntry nid entries := by
  cases h with
  | leaf block =>
    rw [findSubnode, if_neg block.some, hc _ _ block.held]
    exact congrArg (findEntry nid) block.reads
  | @index children hsome _ held reads below keys =>
    rw [findSubnode, if_neg hsome, hc _ _ held, findEntry,
      find?_flatMap_floorEntry nid keys hsorted]
    show (floorEntry Prod.fst (siEntries (siBlockData (children.map Prod.fst))) nid).bind _ = _
    rw [reads, floorEntry_map, Option.bind_map]
    cases hfound : floorEntry (fun c : (Nat × Nat) × List SubnodeEntry => c.1.1) children nid with
    | none => rfl
    | some c =>
      have hblock := below c (mem_of_floorEntry hfound)
      show (store c.1.2).bind _ = _
      rw [hc _ _ hblock.held, Option.bind_some, hblock.reads]
      rfl

/-! ## Trees that are written -/

theorem emitSl_returns {n : Nat} {entries : List SubnodeEntry} {w : NdbWriter}
    (h : Room (n + 1) w) (hcount : entries.length ≤ kSlBlockFanout) :
    Returns (emitSl entries) w fun _ w' => Room n w' := by
  refine emitBlock_returns h ?_
  have hflat := length_flatMap_of_forall (l := entries) (n := 24)
    fun (e : SubnodeEntry) _ => show (le 8 e.nid ++ le 8 e.data ++ le 8 e.sub).length = 24 by simp
  have hfanout : kSlBlockFanout = 340 := rfl
  simp only [slBlockData, List.length_append, List.length_cons, List.length_nil, le_length, hflat]
  unfold kMaxBlockData
  omega

/-- Up to an SIBLOCK's worth of SLBLOCKs, a subnode tree is written. -/
theorem writeSubnodes_returns (std : StdSort) {n : Nat} {entries : List SubnodeEntry}
    {w : NdbWriter} (h : Room (n + 511) w) (hcount : entries.length ≤ 340 * 510) :
    Returns (writeSubnodes std entries) w fun _ w' => Room n w' := by
  have hfanout : kSlBlockFanout = 340 := rfl
  have hwidth : kSiBlockFanout = 510 := rfl
  unfold writeSubnodes
  by_cases hnone : entries = []
  · rw [if_pos hnone]
    exact ⟨0, w, rfl, h.le (by omega)⟩
  rw [if_neg hnone]
  have hlen := std.length_sort (byKey SubnodeEntry.nid) entries
  dsimp only
  generalize std.sort (byKey SubnodeEntry.nid) entries = sorted at hlen ⊢
  by_cases hfew : sorted.length ≤ kSlBlockFanout
  · rw [if_pos hfew]
    exact emitSl_returns (h.le (by omega)) hfew
  rw [if_neg hfew]
  have hpasses : passes sorted.length kSlBlockFanout ≤ kSiBlockFanout :=
    passes_le (by decide) (by rw [hfanout, hwidth]; omega)
  have hloop : Returns (each
      (fun piece => do
        let bid ← emitSl piece
        pure ((piece.headD {}).nid, bid))
      (pieces kSlBlockFanout sorted)) w fun _ v => Room (n + 1) v := by
    refine returns_each_budget (h.le (by rw [pieces_length]; omega)) ?_
    intro piece hpiece m v hv
    refine returns_bind ?_
    refine (emitSl_returns hv (length_of_mem_pieces (by decide) hpiece).2).mono ?_
    exact fun bid v' hv' => ⟨_, v', rfl, hv'⟩
  obtain ⟨children, v, hrun, hv⟩ := hloop
  have hchildren : children.length ≤ kSiBlockFanout := by
    rw [each_length hrun, pieces_length]
    exact hpasses
  refine returns_bind ⟨children, v, hrun, ?_⟩
  dsimp only
  rw [if_neg (not_lt.2 hchildren)]
  refine emitBlock_returns hv ?_
  have hrows := length_flatMap_of_forall (l := children) (n := 16)
    fun (c : Nat × Nat) _ => show (le 8 c.1 ++ le 8 c.2).length = 16 by simp
  simp only [siBlockData, List.length_append, List.length_cons, List.length_nil, le_length, hrows]
  unfold kMaxBlockData
  omega

/-! ## The round trip -/

/-- The subnode tree under `bid` is that of the entries, in the file as it is and when more is
written. -/
structure SubnodesRoundTrip (entries : List SubnodeEntry) (w : NdbWriter) (bid : Nat) : Prop where
  zero : bid = 0 ↔ entries = []
  reads : ∃ sorted : List SubnodeEntry, sorted.Perm entries ∧
    sorted.Pairwise (fun a b => a.nid < b.nid) ∧
    ∀ store, Covers store w → readSubnodes store bid = some sorted
  finds : ∀ store, Covers store w → ∀ nid,
    findSubnode store bid nid = entries.find? fun e => e.nid = nid
  payloads : ∀ e ∈ w.bbt, e.cb ≤ kMaxBlockData

/-- NIDs that are all different are in strict order once sorted. -/
theorem sort_strict (std : StdSort) {entries : List SubnodeEntry}
    (hdistinct : (entries.map SubnodeEntry.nid).Nodup) :
    (std.sort (byKey SubnodeEntry.nid) entries).Pairwise fun a b => a.nid < b.nid := by
  have hsorted := std.sorted (byKey SubnodeEntry.nid) entries (byKey_strictWeak _)
  have hnodup := (((std.perm (byKey SubnodeEntry.nid) entries).map SubnodeEntry.nid).nodup_iff).2
    hdistinct
  rw [List.Nodup, List.pairwise_map] at hnodup
  refine (hsorted.and hnodup).imp fun {a b} h => ?_
  have hle : ¬ b.nid < a.nid := by simpa [byKey] using h.1
  exact lt_of_le_of_ne (not_lt.1 hle) h.2

theorem writeSubnodes_roundTrip {std : StdSort} {entries : List SubnodeEntry}
    {w w' : NdbWriter} {bid : Nat} (h : writeSubnodes std entries w = .ok bid w') (hs : Sound w)
    (hfits : ∀ e ∈ entries, e.Fits) (hdistinct : (entries.map SubnodeEntry.nid).Nodup) :
    SubnodesRoundTrip entries w' bid := by
  have hperm := std.perm (byKey SubnodeEntry.nid) entries
  have hstrict := sort_strict std hdistinct
  obtain ⟨hg, -, -, hreads⟩ := writeSubnodes_reads h hs hfits
  by_cases hsome : entries = []
  · have hrun := h
    rw [writeSubnodes, if_pos hsome] at hrun
    obtain ⟨rfl, rfl⟩ := pure_eq_ok.1 hrun
    refine ⟨iff_of_true rfl hsome, ⟨_, hperm, hstrict, hreads⟩, fun store _ nid => ?_,
      hs.payloads⟩
    rw [hsome]
    rfl
  · obtain ⟨-, -, htree⟩ := writeSubnodes_tree h hs hfits hsome
    refine ⟨iff_of_false htree.root.1 hsome, ⟨_, hperm, hstrict, hreads⟩,
      fun store hc nid => ?_, hg.sound.payloads⟩
    rw [htree.finds hstrict hc nid, findEntry]
    exact find?_key_perm hperm ((hperm.map SubnodeEntry.nid).nodup_iff.2 hdistinct) nid

/-- Whatever was written before, `writeSubnodes` returns 0 exactly for no entries; what it returns
reads back as the entries in order of NID, each found by the descent; 340 * 510 entries are
written on a stream that does not fail, and any more are refused. -/
theorem subnode_tree_round_trip {std : StdSort} {ops : List NdbOp} {fate : Nat → Bool}
    {w : NdbWriter} {u : Unit} (h : opened std ops { fate } = .ok u w) (entries : List SubnodeEntry)
    (hfits : ∀ e ∈ entries, e.Fits) (hdistinct : (entries.map SubnodeEntry.nid).Nodup) :
    (∀ bid w', writeSubnodes std entries w = .ok bid w' → SubnodesRoundTrip entries w' bid) ∧
    (340 * 510 < entries.length → ∃ e w', writeSubnodes std entries w = .error e w') ∧
    ((∀ k, fate k = true) → w.bbt.length < 2 ^ 32 → entries.length ≤ 340 * 510 →
      ∃ bid w', writeSubnodes std entries w = .ok bid w') := by
  have hs := (opened_open h).sound
  refine ⟨fun bid w' hrun => writeSubnodes_roundTrip hrun hs hfits hdistinct, ?_, ?_⟩
  · intro hmany
    cases hrun : writeSubnodes std entries w with
    | ok bid w' =>
      obtain ⟨-, hlen, -⟩ := writeSubnodes_reads hrun hs hfits
      omega
    | error e w' => exact ⟨e, w', rfl⟩
  · intro hfate hfew hcount
    obtain rfl : fate = fun _ => true := funext hfate
    have hroom := ((opened_ready h).pages hfew (n := 0 + 511) (by omega)).1
    obtain ⟨bid, w', hrun, -⟩ := writeSubnodes_returns std hroom hcount
    exact ⟨bid, w', hrun⟩

/-- Two entries, the later NID first. -/
theorem two_entries_round_trip : ∃ w, opened .insertion [] { fate := fun _ => true } = .ok () w ∧
    ∃ bid w', writeSubnodes .insertion [⟨0x8025, 8, 0⟩, ⟨0x671, 4, 2⟩] w = .ok bid w' ∧
      SubnodesRoundTrip [⟨0x8025, 8, 0⟩, ⟨0x671, 4, 2⟩] w' bid := by
  obtain ⟨_, w, hrun, hstart, _⟩ := openWriter_returns
  have h : opened .insertion [] { fate := fun _ => true } = .ok () w :=
    bind_eq_ok.2 ⟨(), w, hrun, rfl⟩
  have hfits : ∀ e ∈ [(⟨0x8025, 8, 0⟩ : SubnodeEntry), ⟨0x671, 4, 2⟩], e.Fits := by
    intro e he
    rcases List.mem_cons.1 he with rfl | he
    · exact ⟨by decide, by decide, by decide⟩
    · rw [List.mem_singleton.1 he]
      exact ⟨by decide, by decide, by decide⟩
  obtain ⟨htrip, -, hreturns⟩ := subnode_tree_round_trip h [⟨0x8025, 8, 0⟩, ⟨0x671, 4, 2⟩] hfits
    (by decide)
  have hfew : w.bbt.length < 2 ^ 32 := by
    rw [hstart.bbt]
    decide
  obtain ⟨bid, w', hwrite⟩ := hreturns (fun _ => rfl) hfew (by decide)
  exact ⟨w, h, bid, w', hwrite, htrip bid w' hwrite⟩

end Pst
end Imap2Pst
