import Imap2Pst.Pst.Bth
import Imap2Pst.Pst.StreamingHeap
import Imap2Pst.Std.Attempts

/-!
# Pst.BthShape

The B-tree on a heap as a whole: its leaves from left to right, its pages, that it is built unless
the heap is full, and that the streaming heap gets the same tree.

* `bthRecords`              — the rows of the leaves, as a reader walks the tree.
* `SoundPages`              — every page fits, and every index entry has the key of its page.
* `buildBth_returnsUnless`  — 65536 blocks are the only limit.
* `bth_built`               — over either heap, whatever else is allocated before and after.
-/

namespace Imap2Pst
namespace Pst

open CxxStd

/-! ## The walk -/

section

variable (item : Nat → Option Bytes) (cbKey cbEnt : Nat)

/-- The rows of the leaves below an allocation with `levels` index levels under it. -/
def bthLeaves : Nat → Nat → Option (List Bytes)
  | 0, hid => (item hid).map (pieces (cbKey + cbEnt))
  | levels + 1, hid => do
    let page ← item hid
    let below ← (pieces (cbKey + 4) page).mapM fun row => bthLeaves levels (fromLe (row.drop cbKey))
    pure below.flatten

/-- Every page is an allocation a heap accepts, and the key of an index entry is the first key of
the page the entry points to. -/
def SoundPages : Nat → Nat → Prop
  | 0, hid => ∃ page, item hid = some page ∧ page.length ≤ maxAllocSize
  | levels + 1, hid => ∃ page, item hid = some page ∧ page.length ≤ maxAllocSize ∧
      ∀ row ∈ pieces (cbKey + 4) page, SoundPages levels (fromLe (row.drop cbKey)) ∧
        ∃ below, item (fromLe (row.drop cbKey)) = some below ∧ row.take cbKey = below.take cbKey

end

/-- The rows of all leaves, from the HID of the BTHHEADER. -/
def bthRecords (item : Nat → Option Bytes) (hid : Nat) : Option (List Bytes) := do
  let header ← item hid
  let root := fromLe (slice header 4 4)
  if header.getD 0 0 ≠ kHnSigBTH then none
  else if root = 0 then pure []
  else bthLeaves item (header.getD 1 0).toNat (header.getD 2 0).toNat (header.getD 3 0).toNat root

/-- The pages under a BTHHEADER. -/
def BthPages (item : Nat → Option Bytes) (hid : Nat) : Prop :=
  ∃ header, item hid = some header ∧ (fromLe (slice header 4 4) ≠ 0 →
    SoundPages item (header.getD 1 0).toNat (header.getD 3 0).toNat (fromLe (slice header 4 4)))

section

variable {cbKey cbEnt : Nat}

/-- A walk from this entry gives its share of the records. -/
structure Walks (cbKey cbEnt : Nat) (h : HeapNode) (levels : Nat)
    (e : (Bytes × Nat) × List BthRecord) : Prop where
  key : e.1.1.length = cbKey
  hid : 0 < e.1.2 ∧ e.1.2 < 256 ^ 4
  first : ∃ page, HasItem h.blocks e.1.2 page ∧ page.take cbKey = e.1.1
  leaves : ∀ item, HeapNode.Finds item h →
    bthLeaves item cbKey cbEnt levels e.1.2 = some (e.2.map fun r => r.key ++ r.value)
  pages : ∀ item, HeapNode.Finds item h → SoundPages item cbKey levels e.1.2

theorem Walks.mono {h h' : HeapNode} {levels : Nat} {e : (Bytes × Nat) × List BthRecord}
    (he : Walks cbKey cbEnt h levels e) (hg : h.Grows h') : Walks cbKey cbEnt h' levels e := by
  obtain ⟨page, hitem, hfirst⟩ := he.first
  exact ⟨he.key, he.hid, ⟨page, hg.items _ _ hitem, hfirst⟩,
    fun item hf => he.leaves item (hf.of_grows hg), fun item hf => he.pages item (hf.of_grows hg)⟩

theorem walks_leaf {h : HeapNode} {hid : Nat} {records : List BthRecord} (hok : h.Ok)
    (hitem : HasItem h.blocks hid (records.flatMap (leafRow cbKey cbEnt)))
    (hlen : (records.flatMap (leafRow cbKey cbEnt)).length ≤ maxAllocSize) (hsome : records ≠ [])
    (hsize : 0 < cbKey + cbEnt) (hfits : ∀ r ∈ records, r.Fits cbKey cbEnt) :
    Walks cbKey cbEnt h 0 (((records.headD ⟨[], []⟩).key, hid), records) := by
  obtain ⟨r, rest, rfl⟩ := List.exists_cons_of_ne_nil hsome
  have hrow (r') (hr' : r' ∈ r :: rest) : leafRow cbKey cbEnt r' = r'.key ++ r'.value := by
    rw [leafRow, List.take_of_length_le (hfits r' hr').key.le,
      List.take_of_length_le (hfits r' hr').value.le]
  have hrows (r') (hr' : r' ∈ r :: rest) : (leafRow cbKey cbEnt r').length = cbKey + cbEnt := by
    rw [hrow r' hr', List.length_append, (hfits r' hr').key, (hfits r' hr').value]
  have hfirst := hfits r List.mem_cons_self
  refine ⟨hfirst.key, hok.hid_range hitem, ⟨_, hitem, ?_⟩, fun item hf => ?_, fun item hf => ?_⟩
  · rw [List.flatMap_cons, hrow r List.mem_cons_self, List.append_assoc,
      List.take_left' hfirst.key]
    rfl
  · rw [bthLeaves, hf hid _ hitem, Option.map_some, pieces_flatMap hsize hrows]
    exact congrArg some (List.map_congr_left hrow)
  · exact ⟨_, hf hid _ hitem, hlen⟩

theorem walks_branch {h : HeapNode} {hid levels : Nat} {ps : List ((Bytes × Nat) × List BthRecord)}
    (hok : h.Ok) (hitem : HasItem h.blocks hid ((ps.map Prod.fst).flatMap (branchRow cbKey)))
    (hlen : ((ps.map Prod.fst).flatMap (branchRow cbKey)).length ≤ maxAllocSize) (hsome : ps ≠ [])
    (hps : ∀ p ∈ ps, Walks cbKey cbEnt h levels p) :
    Walks cbKey cbEnt h (levels + 1)
      ((((ps.map Prod.fst).headD ([], 0)).1, hid), ps.flatMap Prod.snd) := by
  have hrow (q) (hq : q ∈ ps) : branchRow cbKey q.1 = q.1.1 ++ le 4 q.1.2 := by
    rw [branchRow, List.take_of_length_le (hps q hq).key.le]
  have hrows (e) (he : e ∈ ps.map Prod.fst) : (branchRow cbKey e).length = cbKey + 4 := by
    obtain ⟨q, hq, rfl⟩ := List.mem_map.1 he
    rw [hrow q hq, List.length_append, (hps q hq).key, le_length]
  have hkey (q) (hq : q ∈ ps) : (branchRow cbKey q.1).take cbKey = q.1.1 := by
    rw [hrow q hq, List.take_left' (hps q hq).key]
  have hbelow (q) (hq : q ∈ ps) : fromLe ((branchRow cbKey q.1).drop cbKey) = q.1.2 := by
    rw [hrow q hq, List.drop_left' (hps q hq).key, fromLe_le_of_lt (hps q hq).hid.2]
  have hpieces : pieces (cbKey + 4) ((ps.map Prod.fst).flatMap (branchRow cbKey)) =
      ps.map fun q => branchRow cbKey q.1 := by
    rw [pieces_flatMap (Nat.succ_pos _) hrows, List.map_map]
    rfl
  refine ⟨?_, hok.hid_range hitem, ⟨_, hitem, ?_⟩, fun item hf => ?_, fun item hf => ?_⟩
  · obtain ⟨p, rest, rfl⟩ := List.exists_cons_of_ne_nil hsome
    exact (hps p List.mem_cons_self).key
  · obtain ⟨p, rest, rfl⟩ := List.exists_cons_of_ne_nil hsome
    rw [List.map_cons, List.flatMap_cons, hrow p List.mem_cons_self, List.append_assoc,
      List.take_left' (hps p List.mem_cons_self).key]
    rfl
  · have hwalk := mapM_eq_some (l := ps)
      (f := fun q => bthLeaves item cbKey cbEnt levels (fromLe ((branchRow cbKey q.1).drop cbKey)))
      (g := fun q => q.2.map fun r => r.key ++ r.value) fun q hq => by
        rw [hbelow q hq, (hps q hq).leaves item hf]
    simp only [bthLeaves, hf hid _ hitem, Option.bind_eq_bind, Option.bind_some, hpieces,
      List.mapM_map]
    show ((ps.mapM fun q => bthLeaves item cbKey cbEnt levels
      (fromLe ((branchRow cbKey q.1).drop cbKey))).bind fun below => some below.flatten) = _
    rw [hwalk, Option.bind_some, ← List.flatMap_def, List.map_flatMap]
  · refine ⟨_, hf hid _ hitem, hlen, fun row hrow' => ?_⟩
    rw [hpieces] at hrow'
    obtain ⟨q, hq, rfl⟩ := List.mem_map.1 hrow'
    obtain ⟨below, hitem', hfirst⟩ := (hps q hq).first
    rw [hbelow q hq, hkey q hq]
    exact ⟨(hps q hq).pages item hf, below, hf _ _ hitem', hfirst.symm⟩

theorem walks_rule (hkey : 0 < cbKey) : PageRule cbKey cbEnt (Walks cbKey cbEnt) :=
  ⟨Walks.mono, fun hok hitem hlen hsome hfits =>
    walks_leaf hok hitem hlen hsome (Nat.add_pos_left hkey _) hfits, walks_branch⟩

/-! ## What a reader finds -/

/-- The tree under `hid` is that of the records. -/
structure BthReads (item : Nat → Option Bytes) (hid : Nat) (records : List BthRecord) : Prop where
  lookup : ∀ k, bthLookup item hid k = (records.find? fun r => r.num = k).map (·.value)
  leaves : ∃ sorted : List BthRecord, sorted.Perm records ∧ Ascending sorted ∧
    bthRecords item hid = some (sorted.map fun r => r.key ++ r.value)
  pages : BthPages item hid

theorem header_fields (cbKey cbEnt : Nat) {levels root : Nat} (hkey : cbKey < 256) (hent : cbEnt < 256)
    (hlevels : levels < 256) (hroot : root < 256 ^ 4) :
    fromLe (slice (bthHeader cbKey cbEnt levels root) 4 4) = root ∧
      ((bthHeader cbKey cbEnt levels root).getD 1 0).toNat = cbKey ∧
      ((bthHeader cbKey cbEnt levels root).getD 2 0).toNat = cbEnt ∧
      ((bthHeader cbKey cbEnt levels root).getD 3 0).toNat = levels := by
  have hslice : slice (bthHeader cbKey cbEnt levels root) 4 4 = le 4 root := by
    have hsplit : bthHeader cbKey cbEnt levels root =
        [kHnSigBTH, cbKey.toUInt8, cbEnt.toUInt8, levels.toUInt8] ++ (le 4 root ++ []) := by
      rw [List.append_nil, bthHeader]
    have h := slice_of_split hsplit rfl
    rwa [le_length] at h
  have hbyte {n : Nat} (hn : n < 256) : n.toUInt8.toNat = n := by
    rw [UInt8.toNat_ofNat']
    exact Nat.mod_eq_of_lt hn
  rw [hslice, fromLe_le_of_lt hroot]
  exact ⟨rfl, hbyte hkey, hbyte hent, hbyte hlevels⟩

theorem buildBth_reads {std : StdSort} {records : List BthRecord} {h h' : HeapNode} {hid : Nat}
    (hrun : buildBth std cbKey cbEnt records h = .ok hid h') (hok : h.Ok)
    (hkey : 0 < cbKey ∧ cbKey ≤ 8) (hent : cbEnt < 256)
    (hfits : ∀ r ∈ records, r.Fits cbKey cbEnt) (hnodup : (records.map BthRecord.num).Nodup) :
    h.Grows h' ∧ ∀ item, HeapNode.Finds item h' → BthReads item hid records := by
  obtain ⟨hg, -, hlookup⟩ := buildBth_spec hrun hok hkey hent hfits hnodup
  refine ⟨hg, fun item hf => ?_⟩
  have hperm := std.perm (byKey BthRecord.order) records
  have hsorted := ascending_sort std hkey.2 hfits hnodup
  obtain ⟨-, levels, root, hitem, hroot⟩ := buildBth_rule hrun (walks_rule hkey.1) hok hfits
  have hheader := hf hid _ hitem
  rcases hroot with ⟨rfl, rfl, rfl⟩ | ⟨hlevels, p, rfl, hp, hwalks⟩
  · obtain ⟨hzero, -, -, -⟩ := header_fields cbKey cbEnt (show cbKey < 256 by omega) hent
      (show 0 < 256 by decide) (show 0 < 256 ^ 4 by decide)
    refine ⟨hlookup item hf, ⟨[], .refl _, .nil, ?_⟩, _, hheader, fun hne => absurd hzero hne⟩
    simp only [bthRecords, hheader, Option.bind_eq_bind, Option.bind_some, hzero]
    rfl
  · obtain ⟨hpos, hlt⟩ := hwalks.hid
    obtain ⟨hroot, hk, he, hl⟩ := header_fields cbKey cbEnt (show cbKey < 256 by omega) hent
      (show levels < 256 by omega) hlt
    refine ⟨hlookup item hf, ⟨_, hperm, hsorted, ?_⟩, _, hheader, fun _ => ?_⟩
    · have hsig : (bthHeader cbKey cbEnt levels p.1.2).getD 0 0 = kHnSigBTH := rfl
      simp only [bthRecords, hheader, Option.bind_eq_bind, Option.bind_some, hroot, hk, he, hl, hsig,
        ne_eq, not_true_eq_false, if_false, hpos.ne', hwalks.leaves item hf, hp]
    · rw [hroot, hk, hl]
      exact hwalks.pages item hf

/-! ## A heap that is not full -/

/-- More blocks than an HID can name. -/
def HeapNode.Overfull (h : HeapNode) : Prop := 65536 < h.blocks.length

theorem HeapNode.alloc_returnsUnless {h : HeapNode} {data : Bytes} (hok : h.Ok)
    (hlen : data.length ≤ maxAllocSize) :
    ReturnsUnless HeapNode.Overfull (HeapNode.alloc data) h fun _ h' => h'.Ok := by
  cases hrun : HeapNode.alloc data h with
  | ok hid h' => exact .inl ⟨hid, h', hrun, (HeapNode.alloc_spec hrun hok).1.ok⟩
  | error e h' =>
    refine .inr ⟨e, h', hrun, ?_⟩
    unfold HeapNode.alloc at hrun
    rw [if_neg (not_lt.2 hlen)] at hrun
    replace hrun : (ite (h.opens data.length = true) _ _ : EStateM PstError HeapNode Nat) h = _ :=
      hrun
    rcases ite_eq_error.1 hrun with ⟨_, hrun⟩ | ⟨_, hrun⟩
    · replace hrun : (ite (0xFFFF < h.blocks.length) _ _ : EStateM PstError HeapNode Nat) _ = _ :=
        hrun
      rcases ite_eq_error.1 hrun with ⟨hcount, hrun⟩ | ⟨_, hrun⟩
      · cases hrun
        show 65536 < (h.blocks ++ [({} : HeapBlock)]).length
        rw [List.length_append, List.length_singleton]
        omega
      · cases hrun
    · cases hrun

/-- A page of whole rows fits. -/
theorem page_length_le {α : Type} {size : Nat} {f : α → Bytes} {l : List α} (hpos : 0 < size)
    (hsize : size ≤ maxAllocSize) (hrow : ∀ a ∈ l, (f a).length ≤ size)
    (hcount : l.length ≤ recordsPerPage size) : (l.flatMap f).length ≤ maxAllocSize := by
  have hper : recordsPerPage size = maxAllocSize / size :=
    max_eq_right (Nat.div_pos hsize hpos)
  have hrows : (l.flatMap f).length ≤ l.length * size := by
    clear hcount
    induction l with
    | nil => exact Nat.zero_le _
    | cons a l ih =>
      have hone := hrow a List.mem_cons_self
      have hrest := ih fun b hb => hrow b (List.mem_cons_of_mem _ hb)
      rw [List.flatMap_cons, List.length_append, List.length_cons, Nat.succ_mul]
      omega
  calc (l.flatMap f).length ≤ l.length * size := hrows
    _ ≤ maxAllocSize / size * size := Nat.mul_le_mul_right size (hper ▸ hcount)
    _ ≤ maxAllocSize := Nat.div_mul_le_self _ _

theorem pages_returnUnless {α : Type} {size : Nat} {f : α → Bytes} (first : List α → Bytes)
    {l : List α} {h : HeapNode} (hok : h.Ok) (hpos : 0 < size) (hsize : size ≤ maxAllocSize)
    (hrow : ∀ a ∈ l, (f a).length ≤ size) :
    ReturnsUnless HeapNode.Overfull
      (each
        (fun piece => do
          let hid ← HeapNode.alloc (piece.flatMap f)
          pure (first piece, hid)) (pieces (recordsPerPage size) l)) h fun _ h' => h'.Ok := by
  refine returnsUnless_each hok fun piece hpiece h₁ hok₁ => returnsUnless_bind ?_
  have hcount := (length_of_mem_pieces (recordsPerPage_pos size) hpiece).2
  refine (HeapNode.alloc_returnsUnless hok₁ (page_length_le hpos hsize (fun a ha =>
    hrow a (mem_of_mem_pieces (recordsPerPage_pos size) hpiece ha)) hcount)).mono ?_
  exact fun hid h₂ hok₂ => .inl ⟨_, h₂, rfl, hok₂⟩

/-- Each allocation makes one item more. -/
theorem pages_le_items {α : Type} {page : List α → Bytes} {first : List α → Bytes}
    {ps : List (List α)} {h h' : HeapNode} {level : List (Bytes × Nat)}
    (hrun : each
      (fun piece => do
        let hid ← HeapNode.alloc (page piece)
        pure (first piece, hid)) ps h = .ok level h') :
    level.length ≤ (h'.blocks.flatMap (·.items)).length := by
  refine each_rule
    (I := fun _ results h₁ => results.length ≤ (h₁.blocks.flatMap (·.items)).length) ?_
    (Nat.zero_le _) hrun
  intro done results piece h₁ e h₂ _ hle hone
  obtain ⟨hid, h₃, halloc, hpure⟩ := bind_eq_ok.1 hone
  obtain ⟨rfl, rfl⟩ := pure_eq_ok.1 hpure
  obtain ⟨-, -, rfl, -⟩ := HeapNode.alloc_eq_ok.1 halloc
  have hitems := HeapNode.addAll_items h₁ [page piece]
  rw [show h₁.addAll [page piece] = h₁.add (page piece) from rfl] at hitems
  rw [hitems, List.length_append, List.length_append]
  exact Nat.add_le_add_right hle 1

theorem growBth_returnsUnless {left : Nat} {level : List (Bytes × Nat)} {h : HeapNode}
    (hok : h.Ok) (hkey : cbKey ≤ 8) (hcount : level.length ≤ 675 ^ left) :
    ReturnsUnless HeapNode.Overfull (growBth HeapNode.alloc cbKey left level) h
      fun _ h' => h'.Ok := by
  induction left generalizing level h with
  | zero =>
    rw [Nat.pow_zero] at hcount
    rw [growBth, if_pos hcount]
    exact .inl ⟨_, h, rfl, hok⟩
  | succ left ih =>
    by_cases hone : level.length ≤ 1
    · rw [growBth, if_pos hone]
      exact .inl ⟨_, h, rfl, hok⟩
    rw [growBth, if_neg hone]
    have hmax : maxAllocSize = 8101 := rfl
    have hrow (e) (_ : e ∈ level) : (branchRow cbKey e).length ≤ cbKey + 4 := by
      rw [branchRow, List.length_append, List.length_take, le_length]
      omega
    refine returnsUnless_bind ?_
    have hpages := pages_returnUnless (fun piece => (piece.headD ([], 0)).1) hok
      (Nat.succ_pos _) (show cbKey + 4 ≤ maxAllocSize by omega) hrow
    rcases hpages with ⟨next, h₁, hrun, hok₁⟩ | hfull
    · refine .inl ⟨next, h₁, hrun, ih hok₁ ?_⟩
      have hper : 675 ≤ recordsPerPage (cbKey + 4) := by
        refine le_trans ?_ (le_max_right _ _)
        rw [Nat.le_div_iff_mul_le (Nat.succ_pos _), hmax]
        omega
      rw [each_length hrun, pieces_length]
      refine passes_le (recordsPerPage_pos _) (hcount.trans ?_)
      rw [Nat.pow_succ]
      exact Nat.mul_le_mul_left _ hper
    · exact .inr hfull

/-- The tree is built, unless 65536 blocks are not enough for the heap. -/
theorem buildBth_returnsUnless (std : StdSort) (records : List BthRecord) {h : HeapNode}
    (hok : h.Ok) (hkey : 0 < cbKey ∧ cbKey ≤ 8) (hent : cbEnt < 256) :
    ReturnsUnless HeapNode.Overfull (buildBth std cbKey cbEnt records) h fun _ h' => h'.Ok := by
  have hmax : maxAllocSize = 8101 := rfl
  have hheader (levels root : Nat) : (bthHeader cbKey cbEnt levels root).length ≤ maxAllocSize := by
    rw [bthHeader, List.length_append, le_length, hmax]
    exact (by decide : 4 + 4 ≤ 8101)
  unfold buildBth buildBthInto
  dsimp only
  split
  · exact HeapNode.alloc_returnsUnless hok (hheader 0 0)
  have hrow (r) (_ : r ∈ std.sort (byKey BthRecord.order) records) :
      (leafRow cbKey cbEnt r).length ≤ cbKey + cbEnt := by
    rw [leafRow, List.length_append, List.length_take, List.length_take]
    omega
  refine returnsUnless_bind ?_
  have hpages := pages_returnUnless (fun piece => (piece.headD ⟨[], []⟩).key) hok
    (Nat.add_pos_left hkey.1 cbEnt) (show cbKey + cbEnt ≤ maxAllocSize by omega) hrow
  rcases hpages with ⟨level, h₁, hrun, hok₁⟩ | hfull
  · refine .inl ⟨level, h₁, hrun, returnsUnless_bind ?_⟩
    have hitems := (pages_le_items hrun).trans (packed_items_length_le hok₁.packed)
    have hcount := hok₁.count
    have hlevel : level.length ≤ 675 ^ 8 := by
      have hbig : 2047 * 2 ^ 16 ≤ 675 ^ 8 := by decide
      exact (hitems.trans (Nat.mul_le_mul_left 2047 hcount)).trans hbig
    refine (growBth_returnsUnless hok₁ hkey.2 hlevel).mono fun p h₂ hok₂ => ?_
    obtain ⟨levels, roots⟩ := p
    exact HeapNode.alloc_returnsUnless hok₂ (hheader _ _)
  · exact .inr hfull

/-! ## Both heaps -/

/-- Both heaps have the same blocks, and the file has room for all a heap can hold. -/
structure Abreast (h : HeapNode) (t : NdbWriter × StreamingHeap) : Prop where
  ok : h.Ok
  follows : StreamingHeap.Follows t.1 t.2 h
  room : Room (2 ^ 28 - (h.blocks.flatMap (·.items)).length) t.1

theorem alloc_simulates_streaming (data : Bytes) :
    Simulates (fun t h => Sound t.1 ∧ h.Ok ∧ StreamingHeap.Follows t.1 t.2 h)
      (StreamingHeap.alloc data) (HeapNode.alloc data) := by
  rintro ⟨w, s⟩ h hid ⟨w', s'⟩ ⟨hs, hok, hf⟩ hrun
  obtain ⟨hg, halloc, hf'⟩ := StreamingHeap.alloc_follows hrun hs hf
  exact ⟨_, halloc, hg.sound, (HeapNode.alloc_spec halloc hok).1.ok, hf'⟩

theorem alloc_simulates_memory (data : Bytes) :
    Simulates Abreast (HeapNode.alloc data) (StreamingHeap.alloc data) := by
  rintro h ⟨w, s⟩ hid h' ⟨hok, hf, hroom⟩ hrun
  have hok' := (HeapNode.alloc_spec hrun hok).1.ok
  obtain ⟨hlen, -, rfl, rfl⟩ := HeapNode.alloc_eq_ok.1 hrun
  have hitems : ((h.add data).blocks.flatMap (·.items)).length =
      (h.blocks.flatMap (·.items)).length + 1 := by
    have hadd := HeapNode.addAll_items h [data]
    rw [show h.addAll [data] = h.add data from rfl] at hadd
    rw [hadd, List.length_append]
    rfl
  have hfew := (packed_items_length_le hok.packed).trans (Nat.mul_le_mul_left 2047 hok.count)
  obtain ⟨hid, ⟨w', s'⟩, halloc, hroom'⟩ := StreamingHeap.alloc_returns
    (n := 2 ^ 28 - ((h.blocks.flatMap (·.items)).length + 1)) (hroom.le (by omega)) hf hlen
    hok'.count
  obtain ⟨-, hsame, hf'⟩ := StreamingHeap.alloc_follows halloc hroom.sound hf
  rw [hrun] at hsame
  cases hsame
  exact ⟨(w', s'), halloc, hok', hf', hitems ▸ hroom'⟩

/-- What is built into an in-memory heap after `before`. -/
def BuiltInMemory (std : StdSort) (cbKey cbEnt : Nat) (records : List BthRecord) (clientSig : Byte)
    (before : List Bytes) : Prop :=
  ∀ hids h, each HeapNode.alloc before { clientSig } = .ok hids h →
    ReturnsUnless HeapNode.Overfull (buildBth std cbKey cbEnt records) h fun hid h' =>
      ∀ after userRoot hids' stream h'',
        HeapNode.store after userRoot h' = .ok (hids', stream) h'' →
        BthReads (heapItem (pieces kMaxBlockData stream)) hid records

/-- What is built into a streaming heap after `before`. -/
structure BuiltStreaming (std : StdSort) (cbKey cbEnt : Nat) (records : List BthRecord)
    (clientSig : Byte) (before : List Bytes) (w : NdbWriter) : Prop where
  reads : ∀ hids hid t t', each StreamingHeap.alloc before (w, { clientSig }) = .ok hids t →
    buildBthInto std StreamingHeap.alloc cbKey cbEnt records t = .ok hid t' →
    ∀ after userRoot hids' bid t'', StreamingHeap.store after userRoot t' = .ok (hids', bid) t'' →
      ∃ leaves, readTree t''.1.store bid = some leaves ∧ BthReads (heapItem leaves) hid records
  /-- It is the HID that the in-memory heap gives. -/
  returns : Steady w → w.cursor ≤ 2 ^ 61 → ∀ hids h hid h',
    each HeapNode.alloc before { clientSig } = .ok hids h →
    buildBth std cbKey cbEnt records h = .ok hid h' →
    ∃ t t', each StreamingHeap.alloc before (w, { clientSig }) = .ok hids t ∧
      buildBthInto std StreamingHeap.alloc cbKey cbEnt records t = .ok hid t'

theorem builtInMemory (std : StdSort) {records : List BthRecord} (clientSig : Byte)
    (before : List Bytes) (hkey : 0 < cbKey ∧ cbKey ≤ 8) (hent : cbEnt < 256)
    (hfits : ∀ r ∈ records, r.Fits cbKey cbEnt) (hnodup : (records.map BthRecord.num).Nodup) :
    BuiltInMemory std cbKey cbEnt records clientSig before := by
  intro hids h hbefore
  have hok : h.Ok := (moves_each (fun data _ => HeapNode.alloc_grows data) _ _ _ hbefore
    (HeapNode.ok_new clientSig)).ok
  rcases buildBth_returnsUnless std records hok hkey hent with
    ⟨hid, h', hrun, hok'⟩ | hfull
  · obtain ⟨-, hreads⟩ := buildBth_reads hrun hok hkey hent hfits hnodup
    refine .inl ⟨hid, h', hrun, fun after userRoot hids' stream h'' hstore => hreads _ ?_⟩
    obtain ⟨_, h₁, hafter, hstore⟩ := bind_eq_ok.1 hstore
    obtain ⟨_, _, hset, hstore⟩ := bind_eq_ok.1 hstore
    cases modify_eq_ok.1 hset
    cases hstore
    have hg := moves_each (fun data _ => HeapNode.alloc_grows data) _ _ _ hafter hok'
    have hpacked : Packed (h₁.setUserRoot userRoot).blocks := hg.ok.packed
    intro hid' data hitem
    rw [HeapNode.pieces_serialize hpacked]
    exact (HeapNode.rendered_image hpacked).item hpacked hg.ok.count (hg.items _ _ hitem)
  · exact .inr hfull

theorem builtStreaming (std : StdSort) {records : List BthRecord} (clientSig : Byte)
    (before : List Bytes) {w : NdbWriter} (hs : Sound w) (hkey : 0 < cbKey ∧ cbKey ≤ 8)
    (hent : cbEnt < 256) (hfits : ∀ r ∈ records, r.Fits cbKey cbEnt)
    (hnodup : (records.map BthRecord.num).Nodup) :
    BuiltStreaming std cbKey cbEnt records clientSig before w := by
  have hnew := StreamingHeap.follows_new w clientSig
  have hok := HeapNode.ok_new clientSig
  constructor
  · intro hids hid t t' hbefore hrun after userRoot hids' bid t'' hstore
    obtain ⟨h, -, hrel⟩ := simulates_each (fun data _ => alloc_simulates_streaming data) _ _ _ _
      ⟨hs, hok, hnew⟩ hbefore
    obtain ⟨h', hbuild, hrel'⟩ := buildBthInto_simulates std alloc_simulates_streaming cbKey cbEnt
      records _ _ _ _ hrel hrun
    obtain ⟨-, hreads⟩ := buildBth_reads hbuild hrel.2.1 hkey hent hfits hnodup
    obtain ⟨hids'', ⟨w₁, s₁⟩, hafter, hstore⟩ := bind_eq_ok.1 hstore
    obtain ⟨h₁, hafter', hs₁, hok₁, hf₁⟩ := simulates_each
      (fun data _ => alloc_simulates_streaming data) _ _ _ _ hrel' hafter
    obtain ⟨_, _, hmod, hstore⟩ := bind_eq_ok.1 hstore
    cases modify_eq_ok.1 hmod
    obtain ⟨bid', ⟨w₂, s₂⟩, hfinish, hstore⟩ := bind_eq_ok.1 hstore
    cases hstore
    have hf' := hf₁.setUserRoot userRoot
    obtain ⟨hg', htree⟩ := StreamingHeap.finish_tree hfinish hs₁ hf'
    have hg := moves_each (fun data _ => HeapNode.alloc_grows data) _ _ _ hafter' hrel'.2.1
    refine ⟨_, htree _ hg'.sound.covers, hreads _ fun hid' data hitem => ?_⟩
    exact (renderAll_image hok₁.packed StreamingHeap.fillLevels_length).item hok₁.packed
      hok₁.count (hg.items _ _ hitem)
  · intro hsteady hcursor hids h hid h' hbefore hrun
    have hroom : Room (2 ^ 28 - (({ clientSig } : HeapNode).blocks.flatMap (·.items)).length) w :=
      ⟨hs, hsteady, by omega⟩
    have hstart : Abreast { clientSig } (w, { clientSig }) := ⟨hok, hnew, hroom⟩
    obtain ⟨t, ht, hrel⟩ := simulates_each (fun data _ => alloc_simulates_memory data) _ _ _ _
      hstart hbefore
    obtain ⟨t', ht', -⟩ := buildBthInto_simulates std alloc_simulates_memory cbKey cbEnt records
      _ _ _ _ hrel hrun
    exact ⟨t, t', ht, ht'⟩

/-- A B-tree on a heap, with keys of 1 to 8 octets, all different: whatever else is allocated
before and after, over either heap, the HID that is returned leads to each record and to nothing
else, the leaves hold the records in order of their keys, and the pages are sound; only a heap that
is full stops the in-memory build, and only the stream the other one besides. -/
theorem bth_built (std : StdSort) {records : List BthRecord} (clientSig : Byte)
    (before : List Bytes) {w : NdbWriter} (hs : Sound w) (hkey : 0 < cbKey ∧ cbKey ≤ 8)
    (hent : cbEnt < 256) (hfits : ∀ r ∈ records, r.Fits cbKey cbEnt)
    (hnodup : (records.map BthRecord.num).Nodup) :
    BuiltInMemory std cbKey cbEnt records clientSig before ∧
      BuiltStreaming std cbKey cbEnt records clientSig before w :=
  ⟨builtInMemory std clientSig before hkey hent hfits hnodup,
    builtStreaming std clientSig before hs hkey hent hfits hnodup⟩

/-- Two records in the wrong order, after an allocation. -/
theorem bth_built_two : ∃ w, Sound w ∧
    BuiltInMemory .insertion 2 1 [⟨[1, 2], [7]⟩, ⟨[9, 0], [8]⟩] kHnSigPC [[]] ∧
      BuiltStreaming .insertion 2 1 [⟨[1, 2], [7]⟩, ⟨[9, 0], [8]⟩] kHnSigPC [[]] w := by
  obtain ⟨_, w, _, hw⟩ := openWriter_returns
  refine ⟨w, hw.1.sound, bth_built .insertion kHnSigPC [[]] hw.1.sound (by decide) (by decide) ?_
    (by decide)⟩
  intro r hr
  rcases List.mem_cons.1 hr with rfl | hr
  · exact ⟨rfl, rfl⟩
  · rw [List.mem_singleton.1 hr]
    exact ⟨rfl, rfl⟩

end

end Pst
end Imap2Pst
