import Imap2Pst.Pst.Layout
import Imap2Pst.Std.Index
import Imap2Pst.Std.Rows

/-!
# Pst.BTree

The B-trees read back. `readLeaves` walks a tree in a file from the offset of its root, and
`searchTree` descends by the greatest key that is not above the one it looks for.

* `SoundTree`       — what holds of a tree as it lies in a file, page by page.
* `Subtree`, `Tier` — a page under construction leads to its share of the leaves, and a level.
* `buildBTree_sound` — the tree that is built is sound in any file that retains its pages.
* `SoundTree.readLeaves`, `SoundTree.search` — what the readers find in a sound tree.
-/

namespace Imap2Pst
namespace Pst

open CxxStd

/-! ## The reader -/

/-- The entries of a B-tree page. -/
def pageEntries (page : Bytes) : List Bytes :=
  let size := (page.getD 490 0).toNat
  (List.range (page.getD 488 0).toNat).map fun i => (page.drop (i * size)).take size

/-- The leaf entries below the page at `ib`; `depth` bounds the levels. -/
def readLeaves (f : File) : Nat → Nat → List Bytes
  | 0, _ => []
  | depth + 1, ib =>
    let page := f.read ib kPageSize
    if page.getD 491 0 = 0 then pageEntries page
    else (pageEntries page).flatMap fun e => readLeaves f depth (fromLe ((e.drop 16).take 8))

/-- The key of an entry, of a leaf page or of a branch page. -/
def entryKey (e : Bytes) : Nat := fromLe (e.take 8)

/-- An entry of a branch page. -/
def branchOf (e : Bytes) : BranchEntry :=
  ⟨entryKey e, fromLe ((e.drop 8).take 8), fromLe ((e.drop 16).take 8)⟩

/-- The entry with the key `k` below the page at `ib`. -/
def searchTree (f : File) : Nat → Nat → Nat → Option Bytes
  | 0, _, _ => none
  | depth + 1, ib, k =>
    let page := f.read ib kPageSize
    if page.getD 491 0 = 0 then (pageEntries page).find? fun e => entryKey e = k
    else (floorEntry entryKey (pageEntries page) k).bind fun e =>
      searchTree f depth (branchOf e).ib k

/-- The page that `r` names: its trailer has the BID of `r`, the signature of `r` and the type. -/
structure SoundPage (f : File) (ptype : Byte) (size level : Nat) (r : Bref) : Prop where
  level : ((f.read r.ib kPageSize).getD 491 0).toNat = level
  entryMax : ((f.read r.ib kPageSize).getD 489 0).toNat = entriesPerPage size
  count : (pageEntries (f.read r.ib kPageSize)).length ≤ entriesPerPage size
  trailer : TrailerOk f (r.ib + 496) [ptype, ptype] (computeSig r.ib r.bid) (f.read r.ib 496) r.bid

/-- `k` is the smallest key of `entries`. -/
def Least (k : Nat) (entries : List Bytes) : Prop :=
  (∃ e ∈ entries, entryKey e = k) ∧ ∀ e ∈ entries, k ≤ entryKey e

/-- The tree of the given level at `r`, with its leaf entries. -/
def SoundTree (f : File) (ptype : Byte) (size : Nat) : Nat → Bref → List Bytes → Prop
  | 0, r, entries => SoundPage f ptype size 0 r ∧
      pageEntries (f.read r.ib kPageSize) = entries ∧ entries ≠ []
  | level + 1, r, entries => SoundPage f ptype kSizeBTEntry (level + 1) r ∧
      ∃ children : List (BranchEntry × List Bytes),
        (pageEntries (f.read r.ib kPageSize)).map branchOf = children.map Prod.fst ∧
        children ≠ [] ∧ entries = children.flatMap Prod.snd ∧
        ∀ c ∈ children, SoundTree f ptype size level ⟨c.1.bid, c.1.ib⟩ c.2 ∧ Least c.1.key c.2

/-- A whole tree: one empty page, or a tree of at most eight levels. -/
def WholeTree (f : File) (ptype : Byte) (size : Nat) (r : Bref) (entries : List Bytes) : Prop :=
  entries = [] ∧ SoundPage f ptype size 0 r ∧ pageEntries (f.read r.ib kPageSize) = [] ∨
    ∃ level ≤ 7, SoundTree f ptype size level r entries

/-- The file still holds what was written. -/
def Retains (f : File) (history : List Written) : Prop :=
  ∀ x ∈ history, f.read x.ib x.image.length = x.image

theorem Retains.of_prefix {f : File} {history history' : List Written} (h : Retains f history')
    (hp : history <+: history') : Retains f history := fun x hx => h x (hp.subset hx)

/-! ## One page -/

theorem pageImage_getD {entries : List Bytes} {entrySize level : Nat} {ptype : Byte}
    {sig bid : Nat} (hlen : entries.flatten.length ≤ kBTPageDataSize) {k : Nat} {v : Byte}
    (hk : [entries.length.toUInt8, (entriesPerPage entrySize).toUInt8, entrySize.toUInt8,
      level.toUInt8][k]? = some v) :
    (pageImage (pageBody entries entrySize level) ptype sig bid).getD (488 + k) 0 = v := by
  have hfront : (entries.flatten ++
      List.replicate (kBTPageDataSize - entries.flatten.length) (0 : Byte)).length = 488 := by
    rw [List.length_append, List.length_replicate]
    unfold kBTPageDataSize at *
    omega
  obtain ⟨hlt, _⟩ := List.getElem?_eq_some_iff.1 hk
  have hlt : k < 4 := hlt
  rw [List.getD_eq_getElem?_getD, pageImage, pageBody]
  simp only [List.append_assoc]
  rw [← List.append_assoc, List.getElem?_append_right (by omega), hfront, Nat.add_sub_cancel_left]
  rw [List.getElem?_append_left (by simp only [List.length_cons, List.length_nil]; omega)]
  have hhead : [entries.length.toUInt8, (entriesPerPage entrySize).toUInt8, entrySize.toUInt8,
      level.toUInt8, 0, 0, 0, 0] = [entries.length.toUInt8, (entriesPerPage entrySize).toUInt8,
      entrySize.toUInt8, level.toUInt8] ++ [0, 0, 0, 0] := rfl
  rw [hhead, List.getElem?_append_left hlt, hk]
  rfl

/-- The entries of a page are those it was made of. -/
theorem pageEntries_pageImage {entries : List Bytes} {entrySize level : Nat} {ptype : Byte}
    {sig bid : Nat} (hsize : ∀ e ∈ entries, e.length = entrySize) (hsmall : entrySize < 256)
    (hcount : entries.length ≤ entriesPerPage entrySize) (hfew : entries.length < 256) :
    pageEntries (pageImage (pageBody entries entrySize level) ptype sig bid) = entries := by
  have hflat := length_flatten_of_forall hsize
  have hle : entries.flatten.length ≤ kBTPageDataSize := by
    rw [hflat]
    exact (Nat.mul_le_mul_right _ hcount).trans (Nat.div_mul_le_self _ _)
  unfold pageEntries
  rw [pageImage_getD (k := 0) hle rfl, pageImage_getD (k := 2) hle rfl]
  have hc : entries.length.toUInt8.toNat = entries.length := by simp; omega
  have hs : entrySize.toUInt8.toNat = entrySize := by simp; omega
  simp only [hc, hs]
  apply List.ext_getElem
  · simp
  · intro i h₁ h₂
    rw [List.getElem_map, List.getElem_range]
    have hrow := drop_take_flatMap (f := id) hsize h₂
    rw [List.flatMap_id] at hrow
    have hin : i * entrySize + entrySize ≤ entries.flatten.length := by
      rw [hflat, ← Nat.succ_mul]
      exact Nat.mul_le_mul_right _ h₂
    rw [pageImage, pageBody]
    simp only [List.append_assoc]
    rw [List.drop_append_of_le_length (by omega), List.take_append_of_le_length
      (by rw [List.length_drop]; omega)]
    exact hrow

/-! ## The levels of a tree -/

/-- B-tree pages were added, and no block. -/
structure Paged (w w' : NdbWriter) : Prop extends Grows w w' where
  bbt : w'.bbt = w.bbt

theorem Paged.refl {w : NdbWriter} (hs : Sound w) : Paged w w := ⟨Grows.refl hs, rfl⟩

theorem Paged.trans {w w' w'' : NdbWriter} (h : Paged w w') (h' : Paged w' w'') : Paged w w'' :=
  ⟨h.toGrows.trans h'.toGrows, h'.bbt.trans h.bbt⟩

/-- The entry points to a page that was written. -/
def Rooted (w : NdbWriter) (bid ib : Nat) : Prop := ∃ x ∈ w.history, x.bid = bid ∧ x.ib = ib

theorem Rooted.fits {w : NdbWriter} {bid ib : Nat} (h : Rooted w bid ib) (hs : Sound w) :
    bid < 256 ^ 8 ∧ ib < 256 ^ 8 := by
  obtain ⟨x, hx, rfl, rfl⟩ := h
  have hfresh := hs.fresh x hx
  have hindex := hs.index_lt
  have hend := (hs.placed x hx).2
  have hsmall := hs.small
  omega

theorem Rooted.mono {w w' : NdbWriter} {bid ib : Nat} (h : Rooted w bid ib)
    (hgrow : w.history <+: w'.history) : Rooted w' bid ib := by
  obtain ⟨x, hx, hbid, hib⟩ := h
  exact ⟨x, hgrow.subset hx, hbid, hib⟩

/-- A page of a B-tree. -/
theorem finishBTPage_reads {entries : List Bytes} {size level : Nat} {ptype : Byte}
    {w w' : NdbWriter} {r : Bref}
    (h : finishBTPage (pageBody entries size level) ptype w = .ok r w')
    (hsize : ∀ e ∈ entries, e.length = size) (hcount : entries.length ≤ entriesPerPage size)
    (hsmall : size < 256) (hper : entriesPerPage size < 256) (hlevel : level < 256)
    (hs : Sound w) : Paged w w' ∧ Rooted w' r.bid r.ib ∧ ∀ f, Retains f w'.history →
      SoundPage f ptype size level r ∧ pageEntries (f.read r.ib kPageSize) = entries := by
  have hbody := pageBody_length level hsize hcount
  obtain ⟨hs', _, hhist, hbbt, hnbt, hfin⟩ := finishBTPage_spec h hbody hs
  have hmem := hhist ▸ List.mem_append_right w.history List.mem_cons_self
  refine ⟨⟨⟨hs', hhist ▸ List.prefix_append _ _, hnbt, hfin⟩, hbbt⟩, ⟨_, hmem, rfl, rfl⟩,
    fun f hf => ?_⟩
  have hread := hf _ hmem
  have htrailer := verifies_of_read (hs'.made _ hmem) (Rooted.fits ⟨_, hmem, rfl, rfl⟩ hs').1 hread
  rw [pageImage_size hbody] at hread
  have hflat : entries.flatten.length ≤ kBTPageDataSize := by
    rw [length_flatten_of_forall hsize]
    exact (Nat.mul_le_mul_right _ hcount).trans (Nat.div_mul_le_self _ _)
  have hentries : pageEntries (f.read r.ib kPageSize) = entries := by
    rw [hread]
    exact pageEntries_pageImage hsize hsmall hcount (by omega)
  refine ⟨⟨?_, ?_, hentries.symm ▸ hcount, htrailer⟩, hentries⟩
  · rw [hread, pageImage_getD (k := 3) hflat rfl, UInt8.toNat_ofNat']
    exact Nat.mod_eq_of_lt hlevel
  · rw [hread, pageImage_getD (k := 1) hflat rfl, UInt8.toNat_ofNat']
    exact Nat.mod_eq_of_lt hper

section

variable {keyed : Prop} {ptype : Byte} {size : Nat}

/-- The entry leads to a page over `entries`, and has the key of the first; `keyed` says that the
tree is made over entries with their keys, in order. -/
structure Subtree (keyed : Prop) (ptype : Byte) (size : Nat) (w : NdbWriter) (level : Nat)
    (b : BranchEntry) (entries : List Bytes) : Prop where
  rooted : Rooted w b.bid b.ib
  first : keyed → (entries.head?).map entryKey = some b.key
  sound : keyed → ∀ f, Retains f w.history → SoundTree f ptype size level ⟨b.bid, b.ib⟩ entries

theorem Subtree.mono {w w' : NdbWriter} {level : Nat} {b : BranchEntry} {entries : List Bytes}
    (h : Subtree keyed ptype size w level b entries) (hgrow : w.history <+: w'.history) :
    Subtree keyed ptype size w' level b entries :=
  ⟨h.rooted.mono hgrow, h.first, fun hk f hf => h.sound hk f (hf.of_prefix hgrow)⟩

def Ordered (entries : List Bytes) : Prop := entries.Pairwise fun a b => entryKey a ≤ entryKey b

theorem Subtree.least {w : NdbWriter} {level : Nat} {b : BranchEntry} {entries : List Bytes}
    (h : Subtree keyed ptype size w level b entries) (hk : keyed) (hord : Ordered entries) :
    Least b.key entries := by
  obtain ⟨e, hhead, hkey⟩ := Option.map_eq_some_iff.1 (h.first hk)
  obtain ⟨rest, rfl⟩ := List.head?_eq_some_iff.1 hhead
  rw [← hkey]
  refine ⟨⟨e, List.mem_cons_self, rfl⟩, fun e' he' => ?_⟩
  rcases List.mem_cons.1 he' with rfl | he'
  · exact le_rfl
  · exact (List.pairwise_cons.1 hord).1 e' he'

/-- A level of a tree: its entries, each with its share of the leaves. -/
structure Tier (keyed : Prop) (ptype : Byte) (size : Nat) (w : NdbWriter) (level : Nat)
    (ps : List (BranchEntry × List Bytes)) : Prop where
  some : ps ≠ []
  ordered : keyed → Ordered (ps.flatMap Prod.snd)
  leads : ∀ p ∈ ps, Subtree keyed ptype size w level p.1 p.2

theorem Tier.mono {w w' : NdbWriter} {level : Nat} {ps : List (BranchEntry × List Bytes)}
    (h : Tier keyed ptype size w level ps) (hgrow : w.history <+: w'.history) :
    Tier keyed ptype size w' level ps :=
  ⟨h.some, h.ordered, fun p hp => (h.leads p hp).mono hgrow⟩

theorem Tier.piece {w : NdbWriter} {level n : Nat} {ps piece : List (BranchEntry × List Bytes)}
    (h : Tier keyed ptype size w level ps) (hn : 0 < n) (hpiece : piece ∈ pieces n ps) :
    Tier keyed ptype size w level piece := by
  refine ⟨List.length_pos_iff.1 (length_of_mem_pieces hn hpiece).1, fun hk => ?_,
    fun p hp => h.leads p (mem_of_mem_pieces hn hpiece hp)⟩
  have hord := h.ordered hk
  rw [← flatMap_pieces hn] at hord
  exact hord.sublist (List.sublist_flatten_of_mem
    (List.mem_map_of_mem (f := fun p : List (BranchEntry × List Bytes) => p.flatMap Prod.snd)
      hpiece))

/-- A loop that writes one page for each piece makes a level. -/
theorem tier_of_each {α : Type} {n : Nat} {l : List α} {g : List α → Ndb BranchEntry}
    (share : List α → List Bytes) (level : Nat) {w w' : NdbWriter} {next : List BranchEntry}
    (hn : 0 < n) (hl : l ≠ []) (hs : Sound w)
    (hord : keyed → Ordered ((pieces n l).flatMap share))
    (hg : ∀ p ∈ pieces n l, ∀ v v' b, Paged w v → g p v = .ok b v' →
      Paged v v' ∧ Subtree keyed ptype size v' level b (share p))
    (h : each g (pieces n l) w = .ok next w') :
    Paged w w' ∧ ∃ ps, next = ps.map Prod.fst ∧ Tier keyed ptype size w' level ps ∧
      ps.flatMap Prod.snd = (pieces n l).flatMap share := by
  obtain ⟨hgrow, ps, rfl, hshares, hps⟩ := each_rule
    (I := fun done bs v => Paged w v ∧ ∃ ps : List (BranchEntry × List Bytes),
      bs = ps.map Prod.fst ∧ ps.map Prod.snd = done.map share ∧
      ∀ p ∈ ps, Subtree keyed ptype size v level p.1 p.2)
    (by
      rintro done bs p v b v' hp ⟨hgrow, ps, rfl, hshares, hps⟩ hrun
      obtain ⟨hgrow', hsub⟩ := hg p hp v v' b hgrow hrun
      refine ⟨hgrow.trans hgrow', ps ++ [(b, share p)], by simp, by simp [hshares], ?_⟩
      intro q hq
      rcases List.mem_append.1 hq with hq | hq
      · exact (hps q hq).mono hgrow'.history
      · rw [List.mem_singleton.1 hq]
        exact hsub)
    ⟨Paged.refl hs, [], rfl, rfl, by simp⟩ h
  have hflat : ps.flatMap Prod.snd = (pieces n l).flatMap share := by
    rw [List.flatMap_def, hshares, ← List.flatMap_def]
  refine ⟨hgrow, ps, rfl, ⟨?_, hflat ▸ hord, hps⟩, hflat⟩
  rintro rfl
  rw [pieces_eq_cons hn hl] at hshares
  cases hshares

theorem emitLeafPage_subtree {items : List (Nat × Bytes)} {w w' : NdbWriter} {r : Bref}
    (h : emitLeafPage ptype size (items.map Prod.snd) w = .ok r w') (hsome : items ≠ [])
    (hlen : ∀ e ∈ items, e.2.length = size) (hkeys : keyed → ∀ e ∈ items, entryKey e.2 = e.1)
    (hsmall : size < 256) (hper : entriesPerPage size < 256)
    (hcount : items.length ≤ entriesPerPage size) (hs : Sound w) : Paged w w' ∧
      Subtree keyed ptype size w' 0 ⟨(items.headD (0, [])).1, r.bid, r.ib⟩ (items.map Prod.snd) := by
  obtain ⟨hgrow, hrooted, hpage⟩ := finishBTPage_reads h
    (fun e he => by obtain ⟨x, hx, rfl⟩ := List.mem_map.1 he; exact hlen x hx)
    (by rwa [List.length_map]) hsmall hper (by decide) hs
  obtain ⟨e, rest, rfl⟩ := List.exists_cons_of_ne_nil hsome
  refine ⟨hgrow, hrooted, fun hk => ?_, fun _ f hf => ?_⟩
  · show some (entryKey e.2) = some e.1
    rw [hkeys hk e List.mem_cons_self]
  · obtain ⟨hsound, hentries⟩ := hpage f hf
    exact ⟨hsound, hentries, by simp⟩

theorem branchOf_branchBytes {b : BranchEntry} (hkey : b.key < 256 ^ 8) (hbid : b.bid < 256 ^ 8)
    (hib : b.ib < 256 ^ 8) : branchOf (branchBytes b) = b := by
  have hsecond : (branchBytes b).drop 8 = le 8 b.bid ++ le 8 b.ib := by
    rw [branchBytes, List.append_assoc, List.drop_left' (le_length _ _)]
  have hthird : (branchBytes b).drop 16 = le 8 b.ib := by
    rw [branchBytes, List.drop_left' (by simp)]
  have hfirst : (branchBytes b).take 8 = le 8 b.key := by
    rw [branchBytes, List.append_assoc, List.take_left' (le_length _ _)]
  rw [branchOf, entryKey, hfirst, hsecond, hthird, List.take_left' (le_length _ _),
    List.take_of_length_le (le_length _ _).le, fromLe_le_of_lt hkey, fromLe_le_of_lt hbid,
    fromLe_le_of_lt hib]

theorem entryKey_lt (e : Bytes) : entryKey e < 256 ^ 8 := by
  refine Nat.lt_of_lt_of_le (fromLe_lt _) (Nat.pow_le_pow_right (by decide) ?_)
  rw [List.length_take]
  exact Nat.min_le_left _ _

theorem Subtree.fits {w : NdbWriter} {level : Nat} {b : BranchEntry} {entries : List Bytes}
    (h : Subtree keyed ptype size w level b entries) (hk : keyed) (hs : Sound w) :
    branchOf (branchBytes b) = b := by
  obtain ⟨hbid, hib⟩ := h.rooted.fits hs
  obtain ⟨e, -, hkey⟩ := Option.map_eq_some_iff.1 (h.first hk)
  exact branchOf_branchBytes (hkey ▸ entryKey_lt e) hbid hib

theorem emitBranchPage_subtree {level : Nat} {ps : List (BranchEntry × List Bytes)}
    {w w' : NdbWriter} {r : Bref}
    (h : emitBranchPage ptype (ps.map Prod.fst) (level + 1) w = .ok r w')
    (hcount : ps.length ≤ entriesPerPage kSizeBTEntry) (hlevel : level < 255)
    (hin : Tier keyed ptype size w level ps) (hs : Sound w) : Paged w w' ∧
      Subtree keyed ptype size w' (level + 1)
        ⟨((ps.map Prod.fst).headD ⟨0, 0, 0⟩).key, r.bid, r.ib⟩ (ps.flatMap Prod.snd) := by
  obtain ⟨hgrow, hrooted, hpage⟩ := finishBTPage_reads h
    (fun e he => by obtain ⟨b, _, rfl⟩ := List.mem_map.1 he; exact branchBytes_length b)
    (by rwa [List.length_map, List.length_map]) (by decide) (by decide) (by omega) hs
  refine ⟨hgrow, hrooted, fun hk => ?_, fun hk f hf => ?_⟩
  · obtain ⟨p, rest, rfl⟩ := List.exists_cons_of_ne_nil hin.some
    have hfirst := (hin.leads p List.mem_cons_self).first hk
    obtain ⟨e, hhead, hkey⟩ := Option.map_eq_some_iff.1 hfirst
    obtain ⟨tail, hshare⟩ := List.head?_eq_some_iff.1 hhead
    rw [List.flatMap_cons, hshare]
    exact congrArg some hkey
  · obtain ⟨hsound, hentries⟩ := hpage f hf
    have hf' := hf.of_prefix hgrow.history
    refine ⟨hsound, ps, ?_, hin.some, rfl, fun p hp => ?_⟩
    · rw [hentries, List.map_map, List.map_map]
      exact List.map_congr_left fun p hp => (hin.leads p hp).fits hk hs
    · have hord : Ordered p.2 :=
        (hin.ordered hk).sublist (List.sublist_flatten_of_mem (List.mem_map_of_mem hp))
      exact ⟨(hin.leads p hp).sound hk f hf', (hin.leads p hp).least hk hord⟩

/-- One more level over a level. -/
theorem next_tier {level : Nat} {ps : List (BranchEntry × List Bytes)} {next : List BranchEntry}
    {w w' : NdbWriter}
    (h : each (fun piece => do
      let child ← emitBranchPage ptype piece (level + 1)
      pure (⟨(piece.headD ⟨0, 0, 0⟩).key, child.bid, child.ib⟩ : BranchEntry))
      (pieces (entriesPerPage kSizeBTEntry) (ps.map Prod.fst)) w = .ok next w')
    (hlevel : level < 255) (hin : Tier keyed ptype size w level ps) (hs : Sound w) :
    Paged w w' ∧ ∃ qs, next = qs.map Prod.fst ∧ Tier keyed ptype size w' (level + 1) qs ∧
      qs.flatMap Prod.snd = ps.flatMap Prod.snd := by
  have hper : 0 < entriesPerPage kSizeBTEntry := by decide
  rw [pieces_map, each_map] at h
  rw [← flatMap_pieces hper ps]
  refine tier_of_each (fun piece => piece.flatMap Prod.snd) (level + 1) hper hin.some hs ?_ ?_ h
  · rw [flatMap_pieces hper]
    exact hin.ordered
  · intro piece hpiece v v' b hgrow hrun
    obtain ⟨child, _, hchild, hrun⟩ := bind_eq_ok.1 hrun
    obtain ⟨rfl, rfl⟩ := pure_eq_ok.1 hrun
    exact emitBranchPage_subtree hchild (length_of_mem_pieces hper hpiece).2 hlevel
      ((hin.piece hper hpiece).mono hgrow.history) hgrow.sound

theorem growLevels_subtree {left : Nat} {ps : List (BranchEntry × List Bytes)}
    {roots : List BranchEntry} {w w' : NdbWriter}
    (h : growLevels ptype left (ps.map Prod.fst) w = .ok roots w') (hleft : left ≤ 7)
    (hin : Tier keyed ptype size w (7 - left) ps) (hs : Sound w) :
    Paged w w' ∧ ∃ root, roots = [root] ∧
      ∃ level ≤ 7, Subtree keyed ptype size w' level root (ps.flatMap Prod.snd) := by
  have done {left : Nat} {ps : List (BranchEntry × List Bytes)} {w : NdbWriter}
      (hone : (ps.map Prod.fst).length ≤ 1) (hin : Tier keyed ptype size w (7 - left) ps)
      (hs : Sound w) : Paged w w ∧ ∃ root, ps.map Prod.fst = [root] ∧
        ∃ level ≤ 7, Subtree keyed ptype size w level root (ps.flatMap Prod.snd) := by
    obtain ⟨p, rest, rfl⟩ := List.exists_cons_of_ne_nil hin.some
    obtain rfl : rest = [] := by simpa using hone
    refine ⟨Paged.refl hs, p.1, rfl, 7 - left, Nat.sub_le _ _, ?_⟩
    rw [List.flatMap_singleton]
    exact hin.leads p List.mem_cons_self
  induction left generalizing ps w with
  | zero =>
    unfold growLevels at h
    rcases ite_eq_ok.1 h with ⟨hone, h⟩ | ⟨_, h⟩
    · obtain ⟨rfl, rfl⟩ := pure_eq_ok.1 h
      exact done hone hin hs
    · obtain ⟨_, _, _, h⟩ := bind_eq_ok.1 h
      cases h
  | succ left ih =>
    unfold growLevels at h
    rcases ite_eq_ok.1 h with ⟨hone, h⟩ | ⟨_, h⟩
    · obtain ⟨rfl, rfl⟩ := pure_eq_ok.1 h
      exact done hone hin hs
    · obtain ⟨next, w₁, hnext, h⟩ := bind_eq_ok.1 h
      have hstep : 8 - (left + 1) = 7 - (left + 1) + 1 := by omega
      rw [hstep] at hnext
      obtain ⟨hgrow, qs, rfl, htier, hflat⟩ := next_tier hnext (by omega) hin hs
      rw [show 7 - (left + 1) + 1 = 7 - left by omega] at htier
      obtain ⟨hgrow', hroot⟩ := ih h (by omega) htier hgrow.sound
      rw [hflat] at hroot
      exact ⟨hgrow.trans hgrow', hroot⟩

/-- The tree over `entries`, in a file. -/
structure TreeBuilt (keyed : Prop) (ptype : Byte) (size : Nat) (entries : List Bytes)
    (w : NdbWriter) (root : Bref) (w' : NdbWriter) : Prop where
  paged : Paged w w'
  rooted : Rooted w' root.bid root.ib
  whole : keyed → ∀ f, Retains f w'.history → WholeTree f ptype size root entries

theorem buildBTree_sound {items : List (Nat × Bytes)} {w w' : NdbWriter} {root : Bref}
    (h : buildBTree ptype size items w = .ok root w') (hpos : 0 < entriesPerPage size)
    (hper : entriesPerPage size < 256) (hsmall : size < 256)
    (hlen : ∀ e ∈ items, e.2.length = size) (hkeys : keyed → ∀ e ∈ items, entryKey e.2 = e.1)
    (hord : keyed → Ordered (items.map Prod.snd)) (hs : Sound w) :
    TreeBuilt keyed ptype size (items.map Prod.snd) w root w' := by
  unfold buildBTree at h
  rcases ite_eq_ok.1 h with ⟨rfl, h⟩ | ⟨hsome, h⟩
  · obtain ⟨hgrow, hrooted, hpage⟩ := finishBTPage_reads h (by simp) (Nat.zero_le _) hsmall hper
      (by decide) hs
    exact ⟨hgrow, hrooted, fun _ f hf => .inl ⟨rfl, hpage f hf⟩⟩
  obtain ⟨leaves, w₁, hleaves, h⟩ := bind_eq_ok.1 h
  obtain ⟨roots, w₂, hroots, h⟩ := bind_eq_ok.1 h
  obtain ⟨rfl, rfl⟩ := pure_eq_ok.1 h
  have hall : (pieces (entriesPerPage size) items).flatMap (fun p => p.map Prod.snd) =
      items.map Prod.snd := by
    conv => rhs; rw [← pieces_flatten hpos items]
    rw [List.map_flatten, List.flatMap_def]
  obtain ⟨hgrow, ps, rfl, htier, hflat⟩ := tier_of_each (fun p => p.map Prod.snd) 0 hpos hsome hs
    (hall ▸ hord)
    (by
      intro p hp v v' b hgrow hrun
      obtain ⟨child, _, hchild, hrun⟩ := bind_eq_ok.1 hrun
      obtain ⟨rfl, rfl⟩ := pure_eq_ok.1 hrun
      obtain ⟨hsome, hle⟩ := length_of_mem_pieces hpos hp
      exact emitLeafPage_subtree hchild (List.length_pos_iff.1 hsome)
        (fun e he => hlen e (mem_of_mem_pieces hpos hp he))
        (fun hk e he => hkeys hk e (mem_of_mem_pieces hpos hp he)) hsmall hper hle hgrow.sound)
    hleaves
  obtain ⟨hgrow', root, rfl, level, hlevel, hsub⟩ :=
    growLevels_subtree hroots le_rfl htier hgrow.sound
  rw [hflat, hall] at hsub
  exact ⟨hgrow.trans hgrow', hsub.rooted, fun hk f hf => .inr ⟨level, hlevel, hsub.sound hk f hf⟩⟩

end

/-! ## What the readers find -/

theorem SoundTree.some {f : File} {ptype : Byte} {size level : Nat} {r : Bref}
    {entries : List Bytes} (h : SoundTree f ptype size level r entries) : entries ≠ [] := by
  induction level generalizing r entries with
  | zero => exact h.2.2
  | succ level ih =>
    obtain ⟨-, children, -, hsome, rfl, hall⟩ := h
    obtain ⟨c, rest, rfl⟩ := List.exists_cons_of_ne_nil hsome
    rw [List.flatMap_cons]
    exact List.append_ne_nil_of_left_ne_nil (ih (hall c List.mem_cons_self).1) _

theorem SoundPage.branch {f : File} {ptype : Byte} {size level : Nat} {r : Bref}
    (h : SoundPage f ptype size (level + 1) r) : (f.read r.ib kPageSize).getD 491 0 ≠ 0 := by
  intro hzero
  have hlevel := h.level
  rw [hzero] at hlevel
  cases hlevel

theorem SoundPage.leaf {f : File} {ptype : Byte} {size : Nat} {r : Bref}
    (h : SoundPage f ptype size 0 r) : (f.read r.ib kPageSize).getD 491 0 = 0 :=
  UInt8.toNat_inj.1 h.level

/-- The walk from the root yields the entries. -/
theorem SoundTree.readLeaves {f : File} {ptype : Byte} {size level : Nat} {r : Bref}
    {entries : List Bytes} (h : SoundTree f ptype size level r entries) :
    ∀ depth, level < depth → readLeaves f depth r.ib = entries := by
  induction level generalizing r entries with
  | zero =>
    intro depth hdepth
    obtain ⟨depth, rfl⟩ := Nat.exists_eq_add_of_lt hdepth
    obtain ⟨hpage, hentries, -⟩ := h
    rw [Nat.zero_add, Pst.readLeaves, if_pos hpage.leaf, hentries]
  | succ level ih =>
    intro depth hdepth
    obtain ⟨depth, rfl⟩ := Nat.exists_eq_add_of_lt hdepth
    obtain ⟨hpage, children, hchildren, -, rfl, hall⟩ := h
    have hib : ∀ e, fromLe ((List.drop 16 e).take 8) = (branchOf e).ib := fun _ => rfl
    simp only [Pst.readLeaves, if_neg hpage.branch, hib]
    calc (pageEntries (f.read r.ib kPageSize)).flatMap
          (fun e => Pst.readLeaves f (level + 1 + depth) (branchOf e).ib)
        = ((pageEntries (f.read r.ib kPageSize)).map branchOf).flatMap
            (fun b => Pst.readLeaves f (level + 1 + depth) b.ib) := by rw [List.flatMap_map]
      _ = children.flatMap (fun c => Pst.readLeaves f (level + 1 + depth) c.1.ib) := by
          rw [hchildren, List.flatMap_map]
      _ = children.flatMap Prod.snd :=
          List.flatMap_congr fun c hc => ih (hall c hc).1 _ (by omega)

/-- A search in a tree with ascending keys finds the entry with the key, and no other. -/
theorem SoundTree.search {f : File} {ptype : Byte} {size level : Nat} {r : Bref}
    {entries : List Bytes} (h : SoundTree f ptype size level r entries)
    (hsorted : entries.Pairwise fun a b => entryKey a < entryKey b) (k : Nat) :
    ∀ depth, level < depth → searchTree f depth r.ib k = entries.find? fun e => entryKey e = k := by
  induction level generalizing r entries with
  | zero =>
    intro depth hdepth
    obtain ⟨depth, rfl⟩ := Nat.exists_eq_add_of_lt hdepth
    obtain ⟨hpage, hentries, -⟩ := h
    rw [Nat.zero_add, searchTree, if_pos hpage.leaf, hentries]
  | succ level ih =>
    intro depth hdepth
    obtain ⟨depth, rfl⟩ := Nat.exists_eq_add_of_lt hdepth
    obtain ⟨hpage, children, hchildren, -, rfl, hall⟩ := h
    have hsep : ∀ c ∈ children, Separates (fun c : BranchEntry × List Bytes => c.1.key) Prod.snd
        entryKey c := by
      intro c hc
      obtain ⟨hsub, ⟨e, he, hkey⟩, hleast⟩ := hall c hc
      obtain ⟨first, rest, hshare⟩ := List.exists_cons_of_ne_nil hsub.some
      refine ⟨first, rest, hshare, le_antisymm ?_ (hleast first (hshare ▸ List.mem_cons_self))⟩
      have hshares : c.2.Pairwise fun a b => entryKey a < entryKey b :=
        hsorted.sublist (List.sublist_flatten_of_mem (List.mem_map_of_mem hc))
      rw [hshare] at he hshares
      rcases List.mem_cons.1 he with rfl | he
      · exact hkey.le
      · show entryKey first ≤ c.1.key
        rw [← hkey]
        exact ((List.pairwise_cons.1 hshares).1 e he).le
    have hfloor : (floorEntry entryKey (pageEntries (f.read r.ib kPageSize)) k).map branchOf =
        (floorEntry (fun c : BranchEntry × List Bytes => c.1.key) children k).map Prod.fst := by
      rw [← @floorEntry_map _ BranchEntry.key, ← hchildren, floorEntry_map]
      rfl
    simp only [searchTree, if_neg hpage.branch]
    rw [find?_flatMap_floorEntry k hsep hsorted]
    cases hfound : floorEntry (fun c : BranchEntry × List Bytes => c.1.key) children k with
    | none =>
      rw [hfound] at hfloor
      rw [Option.map_eq_none_iff.1 hfloor]
      rfl
    | some c =>
      rw [hfound] at hfloor
      obtain ⟨e, he, hbranch⟩ := Option.map_eq_some_iff.1 hfloor
      have hc := mem_of_floorEntry hfound
      rw [he, Option.bind_some, Option.bind_some, hbranch]
      exact ih (hall c hc).1 (hsorted.sublist
        (List.sublist_flatten_of_mem (List.mem_map_of_mem hc))) _ (by omega)

/-- The walk over a whole tree. -/
theorem WholeTree.readLeaves {f : File} {ptype : Byte} {size : Nat} {r : Bref}
    {entries : List Bytes} (h : WholeTree f ptype size r entries) :
    readLeaves f 8 r.ib = entries := by
  obtain ⟨rfl, hpage, hempty⟩ | ⟨level, hlevel, htree⟩ := h
  · rw [Pst.readLeaves, if_pos hpage.leaf, hempty]
  · exact htree.readLeaves 8 (by omega)

theorem WholeTree.search {f : File} {ptype : Byte} {size : Nat} {r : Bref}
    {entries : List Bytes} (h : WholeTree f ptype size r entries)
    (hsorted : entries.Pairwise fun a b => entryKey a < entryKey b) (k : Nat) :
    searchTree f 8 r.ib k = entries.find? fun e => entryKey e = k := by
  obtain ⟨rfl, hpage, hempty⟩ | ⟨level, hlevel, htree⟩ := h
  · rw [searchTree, if_pos hpage.leaf, hempty]
  · exact htree.search hsorted k 8 (by omega)

end Pst
end Imap2Pst
