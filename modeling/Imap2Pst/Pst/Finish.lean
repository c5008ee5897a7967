import Imap2Pst.Pst.BTree

/-!
# Pst.Finish

What `finish` leaves behind: the file is padded to whole spans and the pages at fixed positions
and the header go over it, clear of every block and B-tree page (`finish_spec`). A session is
the constructor, any operations and `finish` (`session_spec`).

* `closing` — the writes that follow the padding, in order.
* `closing_apart` — no two of them meet.
-/

namespace Imap2Pst
namespace Pst

open CxxStd

/-! ## The constructor -/

theorem maps_start {w : NdbWriter} (h : w.amaps = []) (hlast : w.lastAMapIb = kFirstAMapPos)
    (hspilled : w.spilled = false) : Maps [] w := by
  refine ⟨by simp [h], by rw [h, hlast]; rfl, hspilled, by simp, fun s hs => ?_⟩
  rw [h] at hs
  simp at hs

/-- The state the constructor leaves. -/
structure Started (fate : Nat → Bool) (w : NdbWriter) : Prop where
  sound : Sound w
  history : w.history = []
  bbt : w.bbt = []
  nbt : w.nbt = []
  finished : w.finished = false
  cursor : w.cursor = kFirstDataPos
  amaps : w.amaps.length = 1
  good : w.good = true
  fate : w.fate = fun k => fate (k + 2)

theorem openWriter_spec {fate : Nat → Bool} {w : NdbWriter} {u : Unit}
    (h : openWriter { fate } = .ok u w) : Started fate w := by
  unfold openWriter at h
  generalize hzeros : List.replicate kFirstDataPos (0 : Byte) = zeros at h
  have hlen : zeros.length = kFirstDataPos := by rw [← hzeros, List.length_replicate]
  simp only [bind_eq_ok, put_eq_ok, modify_eq_ok] at h
  obtain ⟨_, w₁, ⟨_, hw₁⟩, _, w₂, ⟨_, hw₂⟩, hw⟩ := h
  have hw₂' : w₂ =
      { fate := fun k => fate (k + 1 + 1), file := (File.empty.write 0 []).write 0 zeros } := by
    rw [← hw₂, ← hw₁]
  have hmaps : Maps [] w₂ := by
    rw [hw₂']
    exact maps_start rfl rfl rfl
  obtain ⟨amaps, last, heq, hcount, hmaps'⟩ := iterate_addAMap_maps hmaps 1
  have hensure : NdbWriter.ensureAMapCount 1 w₂ = NdbWriter.addAMap^[1] w₂ := by
    rw [NdbWriter.ensureAMapCount, hw₂']
    rfl
  rw [hensure, heq] at hw
  rw [heq] at hmaps'
  subst hw
  subst hw₂'
  have hmap : amaps.length = 1 := hcount
  refine ⟨⟨⟨⟨le_rfl, (by decide : kBlockAlign ∣ kFirstDataPos)⟩, hmaps', ?_, by simp,
    List.Pairwise.nil, by simp, by simp, List.Perm.refl _, List.Pairwise.nil, by simp,
    (by decide : 1 * kBlockAlign ≤ kFirstDataPos)⟩, ?_, (by decide : kFirstDataPos < 2 ^ 63)⟩,
    rfl, rfl, rfl, rfl, rfl, hmap, rfl, rfl⟩
  · show kFirstDataPos ≤ amapPage amaps.length
    rw [hmap]
    decide
  · show max (max 0 (0 + 0)) (0 + zeros.length) = kFirstDataPos
    rw [hlen]
    rfl

/-! ## The pages at fixed positions -/

def amapWrite (x : Bytes × Nat) : Nat × Bytes :=
  (amapPage x.2, pageImage x.1 kPTypeAMap 0 (amapPage x.2))

def pmapWrite (k : Nat) : Nat × Bytes :=
  (pmapPage k, pageImage (List.replicate 496 0xFF) kPTypePMap 0 (pmapPage k))

def dlistWrite (bid : Nat) : Nat × Bytes :=
  (kDListPos, pageImage (List.replicate 496 0) kPTypeDList (computeSig kDListPos bid) bid)

/-- The pages `emitFixedPages` writes, in order. -/
def fixedPages (w : NdbWriter) : List (Nat × Bytes) :=
  dlistWrite (makeBid w.nextBidIndex false) :: w.amaps.zipIdx.map amapWrite ++
    (List.range (passes (w.fileEnd - kFirstPMapPos) kPMapSpan)).map pmapWrite

theorem writes_fixedPages (f : File) (w : NdbWriter) : f.writes (fixedPages w) =
    ((f.write kDListPos (dlistWrite (makeBid w.nextBidIndex false)).2).writes
      (w.amaps.zipIdx.map amapWrite)).writes
      ((List.range (passes (w.fileEnd - kFirstPMapPos) kPMapSpan)).map pmapWrite) := by
  unfold fixedPages
  exact File.writes_append _ _ _

/-- A loop whose passes write. -/
theorem each_writeAt {α : Type} {f : α → Nat × Bytes} {g : α → Ndb Unit}
    (hg : ∀ a, g a = writeAt (f a).1 (f a).2) {as : List α} {w w' : NdbWriter} {us : List Unit}
    (h : each g as w = .ok us w') :
    ∃ fate, w' = { w with fate, file := w.file.writes (as.map f) } := by
  induction as generalizing w us with
  | nil =>
    obtain ⟨_, rfl⟩ := pure_eq_ok.1 h
    exact ⟨_, rfl⟩
  | cons a as ih =>
    obtain ⟨_, w₁, _, ha, has, _⟩ := each_cons_eq_ok.1 h
    rw [hg, writeAt, put_eq_ok] at ha
    obtain ⟨_, rfl⟩ := ha
    obtain ⟨fate, rfl⟩ := ih has
    exact ⟨fate, rfl⟩

theorem emitFixedPages_spec {w w' : NdbWriter} {u : Unit} (h : emitFixedPages w = .ok u w') :
    ∃ fate, w' =
      { w with
        fate
        nextBidIndex := w.nextBidIndex + 1
        amapFree := (w.amaps.map fun bits => freeSlots bits * kBlockAlign).sum
        pmapFree := 0
        file := w.file.writes (fixedPages w) } := by
  unfold emitFixedPages at h
  simp only [bind_eq_ok, modify_eq_ok, takeBid_eq_ok, get_eq_ok, writeAt, put_eq_ok] at h
  obtain ⟨_, _, rfl, _, _, ⟨rfl, rfl⟩, _, _, ⟨-, rfl⟩, _, _, ⟨rfl, rfl⟩, _, _, hamaps, _, _, rfl,
    _, _, hpmaps, h⟩ := h
  dsimp only at hamaps hpmaps
  obtain ⟨fate, rfl⟩ := each_writeAt (f := amapWrite) (fun _ => rfl) hamaps
  dsimp only at hpmaps
  obtain ⟨fate', rfl⟩ := each_writeAt (f := pmapWrite) (fun _ => rfl) hpmaps
  obtain ⟨_, rfl⟩ := pure_eq_ok.1 h
  refine ⟨fate', ?_⟩
  rw [writes_fixedPages]
  rfl

/-! ## The end of a session -/

theorem padFile_spec {w w' : NdbWriter} {u : Unit} (h : padFile w = .ok u w')
    (hmapped : w.cursor ≤ amapPage w.amaps.length) (hsize : w.file.size = w.cursor)
    (hsmall : w.cursor < 2 ^ 63) :
    amapPage w.amaps.length < 2 ^ 63 ∧ ∃ fate, w' =
      { w with
        fate
        fileEnd := amapPage w.amaps.length
        file := w.file.write w.cursor
          (List.replicate (amapPage w.amaps.length - w.cursor) 0) } := by
  have hend : max (kFirstAMapPos + w.amaps.length * kAMapSpan) w.cursor =
      amapPage w.amaps.length := max_eq_left hmapped
  unfold padFile at h
  simp only [bind_eq_ok, get_eq_ok, set_eq_ok] at h
  obtain ⟨_, _, ⟨rfl, rfl⟩, _, _, rfl, h⟩ := h
  rw [hend] at h
  rcases ite_eq_ok.1 h with ⟨hlt, h⟩ | ⟨hge, h⟩
  · obtain ⟨⟨_, _, hfit⟩, rfl⟩ := put_eq_ok.1 h
    rw [List.length_replicate] at hfit
    exact ⟨by omega, _, rfl⟩
  · obtain ⟨_, rfl⟩ := pure_eq_ok.1 h
    have hzero : amapPage w.amaps.length - w.cursor = 0 := by omega
    refine ⟨by omega, w.fate, ?_⟩
    rw [hzero, List.replicate_zero, File.write_nil hsize.ge]

/-- The state the header is written from. -/
def headerState (w : NdbWriter) : NdbWriter :=
  { w with
    nextBidIndex := w.nextBidIndex + 1
    fileEnd := amapPage w.amaps.length
    amapFree := (w.amaps.map fun bits => freeSlots bits * kBlockAlign).sum
    pmapFree := 0 }

/-- The header does not depend on the file and the stream. -/
theorem headerImage_headerState (w : NdbWriter) (file : File) (fate : Nat → Bool)
    (nbt bbt : Bref) : headerImage { headerState w with file, fate } nbt bbt =
      headerImage (headerState w) nbt bbt := rfl

/-- The writes that follow the padding. -/
def closing (w : NdbWriter) (nbt bbt : Bref) : List (Nat × Bytes) :=
  fixedPages { w with fileEnd := amapPage w.amaps.length } ++
    [(0, headerImage (headerState w) nbt bbt)]

def closedFile (w : NdbWriter) (nbt bbt : Bref) : File :=
  (w.file.write w.cursor (List.replicate (amapPage w.amaps.length - w.cursor) 0)).writes
    (closing w nbt bbt)

/-- The B-trees hold the sorted tables, and nothing else was written. -/
structure Finished (std : StdSort) (w w₂ : NdbWriter) (nbt bbt : Bref) : Prop where
  sound : Sound w₂
  history : w.history <+: w₂.history
  nbtSorted : w₂.nbt = std.sort (byKey NbtEntry.nid) w.nbt
  bbtSorted : w₂.bbt = std.sort (byKey BbtEntry.bid) w.bbt
  nbtRoot : Rooted w₂ nbt.bid nbt.ib
  bbtRoot : Rooted w₂ bbt.bid bbt.ib
  nbtTree : (∀ e ∈ w.nbt, e.nid < 256 ^ 8) → ∀ f, Retains f w₂.history →
    WholeTree f kPTypeNBT kSizeNBTEntry nbt (w₂.nbt.map nbtBytes)
  bbtTree : ∀ f, Retains f w₂.history →
    WholeTree f kPTypeBBT kSizeBBTEntry bbt (w₂.bbt.map bbtBytes)
  /-- The file is not longer than an offset can say. -/
  small : amapPage w₂.amaps.length < 2 ^ 63

theorem nbtLeaves_length {l : List NbtEntry} :
    ∀ e ∈ l.map fun e => (e.nid, nbtBytes e), e.2.length = kSizeNBTEntry := by
  intro e he
  obtain ⟨x, _, rfl⟩ := List.mem_map.1 he
  exact nbtBytes_length x

theorem bbtLeaves_length {l : List BbtEntry} :
    ∀ e ∈ l.map fun e => (e.bid, bbtBytes e), e.2.length = kSizeBBTEntry := by
  intro e he
  obtain ⟨x, _, rfl⟩ := List.mem_map.1 he
  exact bbtBytes_length x

theorem nbtBytes_key {e : NbtEntry} (h : e.nid < 256 ^ 8) : entryKey (nbtBytes e) = e.nid := by
  simp only [entryKey, nbtBytes, List.append_assoc]
  rw [List.take_left' (le_length _ _), fromLe_le_of_lt h]

theorem bbtBytes_key {e : BbtEntry} (h : e.bid < 256 ^ 8) : entryKey (bbtBytes e) = e.bid := by
  simp only [entryKey, bbtBytes, List.append_assoc]
  rw [List.take_left' (le_length _ _), fromLe_le_of_lt h]

theorem map_entryKey {α : Type} {key : α → Nat} {bytes : α → Bytes} {table : List α}
    (hkey : ∀ a ∈ table, entryKey (bytes a) = key a) :
    (table.map bytes).map entryKey = table.map key := by
  rw [List.map_map]
  exact List.map_congr_left hkey

/-- A sorted table has its entries in order. -/
theorem ordered_sort {α : Type} (std : StdSort) (key : α → Nat) {bytes : α → Bytes} {l : List α}
    (hkey : ∀ a ∈ l, entryKey (bytes a) = key a) :
    Ordered ((std.sort (byKey key) l).map bytes) := by
  refine List.pairwise_map.2 ((std.sorted (byKey key) l (byKey_strictWeak _)).imp_of_mem ?_)
  intro a b ha hb hle
  rw [hkey a (std.mem_sort.1 ha), hkey b (std.mem_sort.1 hb)]
  simpa [byKey] using hle

/-- The BIDs in the block table fit their octets. -/
theorem Sound.bbt_fits {w : NdbWriter} (hs : Sound w) : ∀ e ∈ w.bbt, e.bid < 256 ^ 8 := by
  intro e he
  obtain ⟨x, hx, hentry⟩ := List.mem_filterMap.1 (hs.blocks.mem_iff.2 he)
  have hbid : e.bid = x.bid := by
    cases hkind : x.kind with
    | inl cb => simp only [Written.entry, hkind, Option.some.injEq] at hentry; rw [← hentry]
    | inr ptype => simp only [Written.entry, hkind, reduceCtorEq] at hentry
  rw [hbid]
  exact (Rooted.fits ⟨x, hx, rfl, rfl⟩ hs).1

theorem finish_spec {std : StdSort} {w w' : NdbWriter} {u : Unit}
    (h : finish std w = .ok u w') (hs : Sound w) (hopen : w.finished = false) :
    ∃ w₂ nbt bbt fate, Finished std w w₂ nbt bbt ∧
      w' = { headerState w₂ with fate, file := closedFile w₂ nbt bbt } := by
  unfold finish at h
  obtain ⟨_, _, hget, h⟩ := bind_eq_ok.1 h
  obtain ⟨rfl, rfl⟩ := get_eq_ok.1 hget
  rcases ite_eq_ok.1 h with ⟨hdone, _⟩ | ⟨_, h⟩
  · rw [hopen] at hdone
    cases hdone
  simp only [bind_eq_ok, get_eq_ok, set_eq_ok] at h
  obtain ⟨_, _, rfl, _, _, ⟨rfl, rfl⟩, nbt, w₁, hnbt, bbt, w₂, hbbt, _, _, hpad, _, _, hfixed, _, _,
    hheader, hflush⟩ := h
  dsimp only at hnbt hbbt
  have hsorted := hs.reindex (std.perm (byKey BbtEntry.bid) w.bbt)
    (std.sort (byKey NbtEntry.nid) w.nbt) true
  have hnids (hl : ∀ e ∈ w.nbt, e.nid < 256 ^ 8) :
      ∀ e ∈ std.sort (byKey NbtEntry.nid) w.nbt, entryKey (nbtBytes e) = e.nid :=
    fun e he => nbtBytes_key (hl e (std.mem_sort.1 he))
  have hbids : ∀ e ∈ std.sort (byKey BbtEntry.bid) w.bbt, entryKey (bbtBytes e) = e.bid :=
    fun e he => bbtBytes_key (hs.bbt_fits e (std.mem_sort.1 he))
  obtain ⟨hnbt, hnbtRoot, hnbtTree⟩ := buildBTree_sound hnbt (by decide) (by decide) (by decide)
    nbtLeaves_length (fun hl => List.forall_mem_map.2 (hnids hl))
    (fun hl => by
      rw [List.map_map]
      exact ordered_sort std NbtEntry.nid fun e he => nbtBytes_key (hl e he)) hsorted
  obtain ⟨hbbt, hbbtRoot, hbbtTree⟩ := buildBTree_sound hbbt (by decide) (by decide) (by decide)
    bbtLeaves_length (fun _ : True => List.forall_mem_map.2 hbids)
    (fun _ => by
      rw [List.map_map]
      exact ordered_sort std BbtEntry.bid fun e he => bbtBytes_key (hs.bbt_fits e he)) hnbt.sound
  have hs₂ := hbbt.sound
  obtain ⟨hsmall, fate₁, rfl⟩ := padFile_spec hpad hs₂.mapped hs₂.size hs₂.small
  obtain ⟨fate₂, rfl⟩ := emitFixedPages_spec hfixed
  simp only [writeHeader, bind_eq_ok, get_eq_ok, writeAt, put_eq_ok] at hheader
  obtain ⟨_, _, ⟨rfl, rfl⟩, _, rfl⟩ := hheader
  obtain ⟨_, rfl⟩ := put_eq_ok.1 hflush
  refine ⟨w₂, nbt, bbt, fun k => fate₂ (k + 1 + 1), ⟨hs₂, hnbt.history.trans hbbt.history,
    hbbt.nbt.trans hnbt.nbt, hbbt.bbt.trans hnbt.bbt, hnbtRoot.mono hbbt.history, hbbtRoot, ?_, ?_,
    hsmall⟩, ?_⟩
  · intro hl f hf
    have htree := hnbtTree hl f (hf.of_prefix hbbt.history)
    rw [List.map_map] at htree
    rw [hbbt.nbt, hnbt.nbt]
    exact htree
  · intro f hf
    have htree := hbbtTree trivial f hf
    rw [List.map_map] at htree
    rw [hbbt.bbt, hnbt.bbt]
    exact htree
  rw [File.write_nil (Nat.zero_le _), closedFile, closing, File.writes_append,
    ← headerImage_headerState]
  rfl

/-! ## The closed file -/

@[simp] theorem headerImage_length (w : NdbWriter) (nbt bbt : Bref) :
    (headerImage w nbt bbt).length = kHeaderSize := by
  have hnids : ((List.range 32).flatMap fun t => le 4 (nextNidIndex w.nbt t)).length = 128 := by
    simp [List.length_flatMap]
  simp only [headerImage, headerCore, rootBytes, List.length_append, le_length, hnids,
    List.length_replicate, List.length_cons, List.length_nil]
  rfl

theorem Sound.some_map {w : NdbWriter} (hs : Sound w) : 0 < w.amaps.length := by
  have hmapped := hs.mapped
  have hfirst := hs.cursor.first
  unfold kFirstDataPos at hfirst
  unfold amapPage kFirstAMapPos kAMapSpan at hmapped
  omega

theorem lt_pmapPasses {n k : Nat} (hn : 0 < n) :
    k < passes (amapPage n - kFirstPMapPos) kPMapSpan ↔ 8 * k < n := by
  rw [lt_passes (by decide)]
  unfold amapPage kFirstPMapPos kFirstAMapPos kPMapSpan kAMapSpan
  omega

theorem mem_fixedPages {w : NdbWriter} (hn : 0 < w.amaps.length)
    (hend : w.fileEnd = amapPage w.amaps.length) {e : Nat × Bytes} : e ∈ fixedPages w ↔
      e = dlistWrite (makeBid w.nextBidIndex false) ∨
      (∃ i, ∃ h : i < w.amaps.length, e = amapWrite (w.amaps[i], i)) ∨
      ∃ k, 8 * k < w.amaps.length ∧ e = pmapWrite k := by
  simp only [fixedPages, hend, List.mem_append, List.mem_cons, List.mem_map, List.cons_append,
    List.mem_range, lt_pmapPasses hn, Prod.exists, List.mk_mem_zipIdx_iff_getElem?]
  refine or_congr_right (or_congr ?_ ?_)
  · constructor
    · rintro ⟨bits, i, hi, rfl⟩
      obtain ⟨hlt, rfl⟩ := List.getElem?_eq_some_iff.1 hi
      exact ⟨i, hlt, rfl⟩
    · rintro ⟨i, hlt, rfl⟩
      exact ⟨_, i, List.getElem?_eq_getElem hlt, rfl⟩
  · exact exists_congr fun k => and_congr_right fun _ => eq_comm

/-- A fixed page is a page at a reserved position inside the file. -/
theorem shape_fixedPages {w : NdbWriter} (hn : 0 < w.amaps.length)
    (hend : w.fileEnd = amapPage w.amaps.length) (hsizes : ∀ m ∈ w.amaps, m.length = 496)
    {e : Nat × Bytes} (he : e ∈ fixedPages w) : isReservedPage e.1 = true ∧
      e.2.length = kPageSize ∧ e.1 + kPageSize ≤ amapPage w.amaps.length := by
  unfold kPageSize amapPage kFirstAMapPos kAMapSpan
  rcases (mem_fixedPages hn hend).1 he with rfl | ⟨i, hi, rfl⟩ | ⟨k, hk, rfl⟩
  · refine ⟨rfl, pageImage_size List.length_replicate, ?_⟩
    show kDListPos + 512 ≤ _
    unfold kDListPos
    omega
  · refine ⟨isReservedPage_amapPage i, pageImage_size (hsizes _ (List.getElem_mem hi)), ?_⟩
    show amapPage i + 512 ≤ _
    unfold amapPage kFirstAMapPos kAMapSpan
    omega
  · refine ⟨isReservedPage_pmapPage k, pageImage_size List.length_replicate, ?_⟩
    show pmapPage k + 512 ≤ _
    unfold pmapPage kFirstPMapPos kPMapSpan
    omega

theorem apart_of_reserved {p q : Nat} (hp : isReservedPage p = true) (hq : isReservedPage q = true)
    (hne : p ≠ q) : File.Apart (p, kPageSize) (q, kPageSize) := by
  obtain ⟨i, rfl⟩ := dvd_of_isReservedPage hp
  obtain ⟨j, rfl⟩ := dvd_of_isReservedPage hq
  unfold File.Apart kPageSize at *
  omega

theorem fixedPages_nodup (w : NdbWriter) : (fixedPages w).Pairwise fun a b => a.1 ≠ b.1 := by
  refine List.pairwise_append.2 ⟨List.pairwise_cons.2 ⟨?_, ?_⟩, ?_, ?_⟩
  · rintro _ he
    obtain ⟨⟨bits, i⟩, _, rfl⟩ := List.mem_map.1 he
    show kDListPos ≠ amapPage i
    unfold kDListPos amapPage kFirstAMapPos
    omega
  · refine List.pairwise_iff_getElem.2 fun i j hi hj hlt => ?_
    simp only [List.getElem_map, List.getElem_zipIdx, amapWrite]
    unfold amapPage kAMapSpan
    omega
  · refine List.pairwise_map.2 (List.pairwise_lt_range.imp fun {i j} hlt => ?_)
    show pmapPage i ≠ pmapPage j
    unfold pmapPage kPMapSpan
    omega
  · rintro a ha b hb
    obtain ⟨k, _, rfl⟩ := List.mem_map.1 hb
    show a.1 ≠ pmapPage k
    rcases List.mem_cons.1 ha with rfl | ha
    · show kDListPos ≠ pmapPage k
      unfold kDListPos pmapPage kFirstPMapPos
      omega
    · obtain ⟨⟨bits, i⟩, _, rfl⟩ := List.mem_map.1 ha
      show amapPage i ≠ pmapPage k
      unfold amapPage pmapPage kFirstAMapPos kFirstPMapPos kAMapSpan kPMapSpan
      omega

theorem headerRoom {p : Nat} (h : isReservedPage p = true) : kHeaderSize ≤ p := by
  rw [isReservedPage_iff] at h
  unfold kHeaderSize
  omega

section

variable {w : NdbWriter} (nbt bbt : Bref)

theorem Sound.mem_fixedPages (hs : Sound w) {e : Nat × Bytes} :
    e ∈ fixedPages { w with fileEnd := amapPage w.amaps.length } ↔
      e = dlistWrite (makeBid w.nextBidIndex false) ∨
      (∃ i, ∃ h : i < w.amaps.length, e = amapWrite (w.amaps[i], i)) ∨
      ∃ k, 8 * k < w.amaps.length ∧ e = pmapWrite k :=
  Pst.mem_fixedPages (w := { w with fileEnd := amapPage w.amaps.length }) hs.some_map rfl

theorem Sound.shape_fixedPages (hs : Sound w) {e : Nat × Bytes}
    (he : e ∈ fixedPages { w with fileEnd := amapPage w.amaps.length }) :
    isReservedPage e.1 = true ∧ e.2.length = kPageSize ∧
      e.1 + kPageSize ≤ amapPage w.amaps.length :=
  Pst.shape_fixedPages (w := { w with fileEnd := amapPage w.amaps.length }) hs.some_map rfl
    hs.maps.sizes he

/-- No two of the writes after the padding meet. -/
theorem closing_apart (hs : Sound w) : (closing w nbt bbt).Pairwise fun a b =>
    File.Apart (File.extent a) (File.extent b) := by
  refine List.pairwise_append.2 ⟨?_, by simp, ?_⟩
  · refine (fixedPages_nodup _).imp_of_mem fun {a b} ha hb hne => ?_
    obtain ⟨hpa, hla, _⟩ := hs.shape_fixedPages ha
    obtain ⟨hpb, hlb, _⟩ := hs.shape_fixedPages hb
    rw [File.extent, File.extent, hla, hlb]
    exact apart_of_reserved hpa hpb hne
  · intro a ha b hb
    rw [List.mem_singleton.1 hb]
    refine .inr ?_
    rw [File.extent, headerImage_length, Nat.zero_add]
    exact headerRoom (hs.shape_fixedPages ha).1

theorem closing_inside (hs : Sound w) : ∀ e ∈ closing w nbt bbt,
    e.1 + e.2.length ≤ amapPage w.amaps.length := by
  intro e he
  rcases List.mem_append.1 he with he | he
  · obtain ⟨_, hlen, hle⟩ := hs.shape_fixedPages he
    rw [hlen]
    exact hle
  · rw [List.mem_singleton.1 he, headerImage_length, Nat.zero_add]
    exact headerRoom (isReservedPage_amapPage _)

theorem size_closedFile (hs : Sound w) :
    (closedFile w nbt bbt).size = amapPage w.amaps.length := by
  have hmapped := hs.mapped
  have hsize : (w.file.write w.cursor
      (List.replicate (amapPage w.amaps.length - w.cursor) 0)).size = amapPage w.amaps.length := by
    show max w.file.size (w.cursor + (List.replicate _ (0 : Byte)).length) = _
    rw [hs.size, List.length_replicate]
    omega
  rw [closedFile, File.size_writes, hsize]
  intro e he
  rw [hsize]
  exact closing_inside nbt bbt hs e he

/-- Nothing the end of a session writes meets a block or a B-tree page. -/
theorem read_closedFile (hs : Sound w) {x : Written} (hx : x ∈ w.history) :
    (closedFile w nbt bbt).read x.ib x.image.length = x.image := by
  obtain ⟨hplaced, hend⟩ := hs.placed x hx
  rw [closedFile, File.read_writes_of_apart, File.read_write_of_disjoint (.inl hend), hs.kept x hx]
  intro e he
  rcases List.mem_append.1 he with he | he
  · obtain ⟨hres, hlen, _⟩ := hs.shape_fixedPages he
    rw [File.extent, hlen]
    exact hplaced.free _ hres
  · rw [List.mem_singleton.1 he, File.extent, headerImage_length]
    exact .inl ((by decide : 0 + kHeaderSize ≤ kFirstDataPos).trans hplaced.first)

/-- Every page at a fixed position, and the header, is there at the end. -/
theorem read_closing (hs : Sound w) {e : Nat × Bytes} (he : e ∈ closing w nbt bbt) :
    (closedFile w nbt bbt).read e.1 e.2.length = e.2 :=
  File.read_writes_self (closing_apart nbt bbt hs) he

end

/-! ## ROOT, read back -/

structure Root where
  ibFileEof : Nat
  ibAMapLast : Nat
  cbAMapFree : Nat
  cbPMapFree : Nat
  nbt : Bref
  bbt : Bref
  deriving DecidableEq, Repr

def readRoot (f : File) : Root where
  ibFileEof := fromLe (f.read 184 8)
  ibAMapLast := fromLe (f.read 192 8)
  cbAMapFree := fromLe (f.read 200 8)
  cbPMapFree := fromLe (f.read 208 8)
  nbt := ⟨fromLe (f.read 216 8), fromLe (f.read 224 8)⟩
  bbt := ⟨fromLe (f.read 232 8), fromLe (f.read 240 8)⟩

theorem headerCore_root (w : NdbWriter) (nbt bbt : Bref) : ∃ front rest,
    headerCore w nbt bbt = front ++ rootBytes w nbt bbt ++ rest ∧ front.length = 172 := by
  have hnids : ((List.range 32).flatMap fun t => le 4 (nextNidIndex w.nbt t)).length = 128 := by
    simp [List.length_flatMap]
  let nextBid := makeBid w.nextBidIndex false
  refine ⟨le 2 0x4D53 ++ le 2 23 ++ le 2 19 ++ [0x01, 0x01] ++ List.replicate 8 0 ++ le 8 0 ++
    le 8 nextBid ++ le 4 1 ++ (List.range 32).flatMap (fun t => le 4 (nextNidIndex w.nbt t)) ++
    List.replicate 8 0, List.replicate 4 0 ++ List.replicate 128 0xFF ++ List.replicate 128 0xFF ++
    [0x80, 0x00, 0, 0] ++ le 8 nextBid, ?_, ?_⟩
  · unfold headerCore
    simp only [List.append_assoc]
    rfl
  · simp only [List.length_append, le_length, hnids, List.length_replicate, List.length_cons,
      List.length_nil]

theorem headerImage_root (w : NdbWriter) (nbt bbt : Bref) : ∃ front rest,
    headerImage w nbt bbt = front ++ rootBytes w nbt bbt ++ rest ∧ front.length = 180 := by
  obtain ⟨front, rest, hcore, hlen⟩ := headerCore_root w nbt bbt
  unfold headerImage
  generalize headerCore w nbt bbt = core at hcore
  refine ⟨le 4 0x4E444221 ++ le 4 (computeCrc (core.take 471)) ++ front,
    rest ++ le 4 (computeCrc core) ++ List.replicate 36 0, ?_, ?_⟩
  · simp only
    nth_rewrite 2 [hcore]
    simp only [List.append_assoc]
  · simp only [List.length_append, le_length, hlen]

/-- One of the numbers in a row that were read, each `m` octets wide. -/
theorem read_le_row {f : File} {ib n m : Nat} {front rest : Bytes} {xs : List Nat}
    (h : f.read ib n = front ++ xs.flatMap (le m) ++ rest) {k x : Nat} (hk : xs[k]? = some x)
    (hx : x < 256 ^ m) : fromLe (f.read (ib + front.length + k * m) m) = x := by
  obtain ⟨hlt, rfl⟩ := List.getElem?_eq_some_iff.1 hk
  have hlen : ((xs.take k).flatMap (le m)).length = k * m := by
    rw [length_flatMap_of_forall (n := m) (fun _ _ => le_length _ _), List.length_take,
      Nat.min_eq_left hlt.le]
  have hread := File.read_middle (a := front ++ (xs.take k).flatMap (le m)) (b := le m xs[k])
    (c := (xs.drop (k + 1)).flatMap (le m) ++ rest)
    (by rw [h, flatMap_split hlt]; simp only [List.append_assoc])
  rw [List.length_append, hlen, le_length, ← Nat.add_assoc] at hread
  rw [hread, fromLe_le_of_lt hx]

/-- The fields of ROOT fit their eight octets. -/
structure RootFits (w : NdbWriter) (nbt bbt : Bref) : Prop where
  fileEnd : w.fileEnd < 256 ^ 8
  last : w.lastAMapIb < 256 ^ 8
  amapFree : w.amapFree < 256 ^ 8
  pmapFree : w.pmapFree < 256 ^ 8
  nbt : nbt.bid < 256 ^ 8 ∧ nbt.ib < 256 ^ 8
  bbt : bbt.bid < 256 ^ 8 ∧ bbt.ib < 256 ^ 8

theorem readRoot_of_read {f : File} {w : NdbWriter} {nbt bbt : Bref}
    (h : f.read 180 72 = rootBytes w nbt bbt) (hfits : RootFits w nbt bbt) :
    readRoot f = ⟨w.fileEnd, w.lastAMapIb, w.amapFree, w.pmapFree, nbt, bbt⟩ := by
  obtain ⟨hend, hlast, hamap, hpmap, ⟨hnbid, hnib⟩, hbbid, hbib⟩ := hfits
  have hrow : rootBytes w nbt bbt = le 4 0 ++ [w.fileEnd, w.lastAMapIb, w.amapFree, w.pmapFree,
      nbt.bid, nbt.ib, bbt.bid, bbt.ib].flatMap (le 8) ++ ([0x02, 0x00] ++ le 2 0) := by
    simp only [rootBytes, List.flatMap_cons, List.flatMap_nil, List.append_assoc, List.append_nil]
  rw [hrow] at h
  have hfield (k x : Nat) := read_le_row (k := k) (x := x) h
  simp only [le_length, Nat.reduceAdd] at hfield
  have hend := hfield 0 _ rfl hend
  have hlast := hfield 1 _ rfl hlast
  have hamap := hfield 2 _ rfl hamap
  have hpmap := hfield 3 _ rfl hpmap
  have hnbid := hfield 4 _ rfl hnbid
  have hnib := hfield 5 _ rfl hnib
  have hbbid := hfield 6 _ rfl hbbid
  have hbib := hfield 7 _ rfl hbib
  simp only [Nat.reduceMul, Nat.reduceAdd] at hend hlast hamap hpmap hnbid hnib hbbid hbib
  unfold readRoot
  rw [hend, hlast, hamap, hpmap, hnbid, hnib, hbbid, hbib]

theorem freeSlots_le (bits : Bytes) : freeSlots bits ≤ 8 * bits.length := by
  unfold freeSlots
  induction bits with
  | nil => exact le_rfl
  | cons byte bits ih =>
    have hbyte : (List.range 8).countP (fun b => byte &&& bitMask b = 0) ≤ 8 :=
      List.countP_le_length
    simp only [List.map_cons, List.sum_cons, List.length_cons] at *
    omega

theorem amapFree_le {amaps : List Bytes} (h : ∀ m ∈ amaps, m.length = 496) :
    (amaps.map fun bits => freeSlots bits * kBlockAlign).sum ≤ amaps.length * kAMapSpan := by
  induction amaps with
  | nil => exact le_rfl
  | cons bits amaps ih =>
    have hbits := freeSlots_le bits
    rw [h bits (by simp)] at hbits
    have hrest := ih fun m hm => h m (by simp [hm])
    unfold kAMapSpan kBlockAlign at *
    simp only [List.map_cons, List.sum_cons, List.length_cons]
    omega

theorem Finished.readRoot {std : StdSort} {w w₂ : NdbWriter} {nbt bbt : Bref}
    (h : Finished std w w₂ nbt bbt) : readRoot (closedFile w₂ nbt bbt) =
      ⟨amapPage w₂.amaps.length, amapPage (w₂.amaps.length - 1),
        (w₂.amaps.map fun bits => freeSlots bits * kBlockAlign).sum, 0, nbt, bbt⟩ := by
  obtain ⟨front, rest, himage, hfront⟩ := headerImage_root (headerState w₂) nbt bbt
  have hread := read_closing nbt bbt h.sound
    (List.mem_append_right _ (List.mem_singleton.2 rfl) :
      (0, headerImage (headerState w₂) nbt bbt) ∈ closing w₂ nbt bbt)
  have hroot := File.read_middle (hread.trans himage)
  have hlen : (rootBytes (headerState w₂) nbt bbt).length = 72 := by
    simp only [rootBytes, List.length_append, le_length, List.length_cons, List.length_nil]
  rw [hfront, hlen] at hroot
  have hfree := amapFree_le h.sound.maps.sizes
  have hsmall := h.small
  have hmono : amapPage (w₂.amaps.length - 1) ≤ amapPage w₂.amaps.length := by
    unfold amapPage kAMapSpan
    omega
  have hle : w₂.amaps.length * kAMapSpan ≤ amapPage w₂.amaps.length := Nat.le_add_left _ _
  have hlast := h.sound.maps.last
  refine (readRoot_of_read hroot ⟨?_, ?_, ?_, ?_, h.nbtRoot.fits h.sound,
    h.bbtRoot.fits h.sound⟩).trans ?_
  · show amapPage w₂.amaps.length < _
    omega
  · show w₂.lastAMapIb < _
    omega
  · show (w₂.amaps.map fun bits => freeSlots bits * kBlockAlign).sum < _
    omega
  · show 0 < _
    omega
  · show (⟨_, w₂.lastAMapIb, _, _, _, _⟩ : Root) = _
    rw [hlast]
    rfl

end Pst
end Imap2Pst
