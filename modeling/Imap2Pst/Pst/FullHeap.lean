import Imap2Pst.Pst.StreamingHeap
import Imap2Pst.Std.Attempts

/-!
# Pst.FullHeap

Both heaps under callers that catch exceptions and go on. The block index is checked only where a
block is opened: once the check has thrown, block 0x10000 is in progress, and the HIDs it gives
out are those of block 0.

* `Step` — what a caught call does to the in-memory heap; the streaming heap follows.
* `Kept` — what holds while no call meets a heap whose block index is past 0xFFFF.
* `full_heap_faithful_iff` — when every HID keeps to its own allocation.
-/

namespace Imap2Pst
namespace Pst

open CxxStd

/-! ## Caught calls -/

/-- A call that throws may have opened a block. -/
inductive Step (data : Bytes) (h : HeapNode) : Option Nat → HeapNode → Prop
  | refused : Step data h none h
  | beyond (hlen : data.length ≤ maxAllocSize) (hcount : 0xFFFF < h.blocks.length) :
      Step data h none { h with full := h.blocks, last := {} }
  | stored (hlen : data.length ≤ maxAllocSize)
      (hcount : h.opens data.length = true → h.blocks.length ≤ 0xFFFF) :
      Step data h (some (h.add data).lastHid) (h.add data)

theorem HeapNode.attempt_alloc (data : Bytes) (h : HeapNode) :
    Step data h (attempt (alloc data) h).1 (attempt (alloc data) h).2 := by
  cases hrun : alloc data h with
  | ok hid h' =>
    obtain ⟨hlen, hcount, rfl, rfl⟩ := alloc_eq_ok.1 hrun
    rw [attempt_eq_some.2 hrun]
    exact .stored hlen hcount
  | error e h' =>
    rw [attempt_eq_none.2 ⟨e, hrun⟩]
    unfold alloc at hrun
    rcases ite_eq_error.1 hrun with ⟨_, hrun⟩ | ⟨hlen, hrun⟩
    · cases hrun
      exact .refused
    replace hrun : (ite (h.opens data.length = true) _ _ : EStateM PstError HeapNode Nat) h = _ :=
      hrun
    rcases ite_eq_error.1 hrun with ⟨_, hrun⟩ | ⟨_, hrun⟩
    · replace hrun : (ite (0xFFFF < h.blocks.length) _ _ : EStateM PstError HeapNode Nat) _ = _ :=
        hrun
      rcases ite_eq_error.1 hrun with ⟨hcount, hrun⟩ | ⟨_, hrun⟩
      · cases hrun
        exact .beyond (not_lt.1 hlen) hcount
      · cases hrun
    · cases hrun

/-! ## While the block index has 16 bits -/

namespace HeapNode

/-- No allocation is in a block past the last that an HID can name. -/
def Indexed (h : HeapNode) : Prop :=
  h.full.length ≤ 0xFFFF ∨ h.full.length = 0x10000 ∧ h.last.items = []

theorem Indexed.item {h : HeapNode} (hi : h.Indexed) (hp : Packed h.blocks) {images : List Bytes}
    (himage : HeapImage images h.blocks) {hid : Nat} {item : Bytes}
    (hitem : HasItem h.blocks hid item) : heapItem images hid = some item := by
  obtain ⟨i, b, k, hb, hk, rfl⟩ := hitem
  obtain ⟨hlt, _⟩ := List.getElem?_eq_some_iff.1 hb
  have hblocks : h.blocks.length = h.full.length + 1 := List.length_append
  have hlen := himage.length
  have hbelow : i < 2 ^ 16 := by
    rcases hi with hfew | ⟨hmany, hempty⟩
    · omega
    rcases getElem?_blocks.1 hb with hfull | ⟨_, rfl⟩
    · obtain ⟨hlt', _⟩ := List.getElem?_eq_some_iff.1 hfull
      omega
    · rw [hempty] at hk
      cases hk
  have hget := List.getElem?_eq_getElem (l := images) (i := i) (by omega)
  exact heapItem_of_reads hget (himage.reads i _ b hget hb) hk hbelow (hp i b hb).slots

/-- The HID of the last allocation, before it is narrowed. -/
def mark (h : HeapNode) : Nat := 65536 * h.full.length + 32 * h.last.items.length

theorem last_slots {h : HeapNode} (hp : Packed h.blocks) : h.last.items.length ≤ 2047 :=
  (hp _ _ (getElem?_blocks.2 (.inr ⟨rfl, rfl⟩))).slots

theorem lastHid_eq_mark {h : HeapNode} (hp : Packed h.blocks) (hfew : h.full.length ≤ 0xFFFF) :
    h.lastHid = h.mark := by
  have hslots := last_slots hp
  exact makeHid_of_lt (by omega) (by omega)

theorem mark_lt_add {h : HeapNode} (hp : Packed h.blocks) (data : Bytes) :
    h.mark < (h.add data).mark := by
  have hslots := last_slots hp
  by_cases hopen : h.opens data.length = true
  · have hblocks : h.blocks.length = h.full.length + 1 := List.length_append
    have hone : (({} : HeapBlock).push data).items.length = 1 := rfl
    rw [add_of_opens hopen, mark, mark, hblocks, hone]
    omega
  · rw [add_of_fits hopen, mark, mark, StreamingHeap.items_push]
    dsimp only
    omega

theorem hasItem_opened {h : HeapNode} {hid : Nat} {item : Bytes}
    (hitem : HasItem h.blocks hid item) :
    HasItem ({ h with full := h.blocks, last := {} } : HeapNode).blocks hid item := by
  obtain ⟨i, b, k, hb, hk, rfl⟩ := hitem
  exact ⟨i, b, k, getElem?_blocks.2 (.inl hb), hk, rfl⟩

/-- A block without allocations takes any one. -/
theorem not_opens_of_empty {h : HeapNode} {data : Bytes} (hempty : h.last.items = [])
    (hlen : data.length ≤ maxAllocSize) : ¬h.opens data.length = true := by
  have hroom : blockHeaderSize h.full.length + (0 + data.length) + pageMapSize 1 + 1 ≤
      kMaxBlockData := (roomy_single hlen).room
  have hused : h.last.used = 0 := by rw [h.last.used_eq, hempty]; rfl
  have hfits : h.last.fits h.full.length data.length = true := by
    simp only [HeapBlock.fits, hempty, hused, decide_eq_true_eq, Nat.add_assoc] at hroom ⊢
    exact hroom
  simp [opens, hfits, hempty]

end HeapNode

/-- What holds of the HIDs returned, and the heap, while no call meets a heap that is full. -/
structure Kept (items : List Bytes) (hids : List (Option Nat)) (h : HeapNode) : Prop where
  length : hids.length = items.length
  packed : Packed h.blocks
  found : ∀ (k hid : Nat) (item : Bytes), hids[k]? = some (some hid) → items[k]? = some item →
    HasItem h.blocks hid item
  ascending : (hids.filterMap id).Pairwise (· < ·)
  below : ∀ hid ∈ hids.filterMap id, hid ≤ h.mark
  /-- The first allocation gets the HID that comes up again. -/
  first : 32 ∈ hids.filterMap id ∨ h.full = [] ∧ h.last.items = []
  indexed : h.Indexed

theorem kept_new (clientSig : Byte) : Kept [] [] { clientSig } :=
  ⟨rfl, HeapNode.packed_new clientSig, by simp, by simp, by simp, .inr ⟨rfl, rfl⟩,
    .inl (Nat.zero_le _)⟩

/-- A call that returned nothing leaves what was returned alone. -/
theorem Kept.skip {items : List Bytes} {hids : List (Option Nat)} {h : HeapNode}
    (hk : Kept items hids h) (data : Bytes) : Kept (items ++ [data]) (hids ++ [none]) h := by
  have hnone : (hids ++ [none]).filterMap id = hids.filterMap id := by simp
  refine ⟨by simp [hk.length], hk.packed, ?_, hnone ▸ hk.ascending, hnone ▸ hk.below,
    hnone ▸ hk.first, hk.indexed⟩
  intro k hid item hhid hitem
  rcases Nat.lt_or_ge k hids.length with hlt | hge
  · rw [List.getElem?_append_left hlt] at hhid
    rw [List.getElem?_append_left (hk.length ▸ hlt)] at hitem
    exact hk.found k hid item hhid hitem
  · rw [List.getElem?_append_right hge, List.getElem?_singleton] at hhid
    split at hhid <;> cases hhid

/-- A block was opened, and its index does not fit an HID. -/
theorem Kept.opened {items : List Bytes} {hids : List (Option Nat)} {h : HeapNode}
    (hk : Kept items hids h) (hfull : h.full.length ≤ 0xFFFF) (hcount : 0xFFFF < h.blocks.length) :
    Kept items hids { h with full := h.blocks, last := {} } := by
  have hblocks : h.blocks.length = h.full.length + 1 := List.length_append
  have hslots := HeapNode.last_slots hk.packed
  refine ⟨hk.length, HeapNode.packed_opened hk.packed, fun k hid item hhid hitem =>
    HeapNode.hasItem_opened (hk.found k hid item hhid hitem), hk.ascending, ?_,
    .inl (hk.first.resolve_right fun hnone => ?_), .inr ⟨?_, rfl⟩⟩
  · intro hid hhid
    have hle := hk.below hid hhid
    have hone : ({} : HeapBlock).items.length = 0 := rfl
    rw [HeapNode.mark] at hle ⊢
    dsimp only
    rw [hblocks, hone]
    omega
  · rw [hnone.1] at hblocks
    rw [hblocks] at hcount
    exact absurd hcount (by decide)
  · show h.blocks.length = 0x10000
    omega

theorem Kept.stored {items : List Bytes} {hids : List (Option Nat)} {h : HeapNode} {data : Bytes}
    (hk : Kept items hids h) (hlen : data.length ≤ maxAllocSize)
    (hfull : h.full.length ≤ 0xFFFF)
    (hcount : h.opens data.length = true → h.blocks.length ≤ 0xFFFF) :
    Kept (items ++ [data]) (hids ++ [some (h.add data).lastHid]) (h.add data) := by
  have hpacked := HeapNode.add_packed hk.packed hlen
  have hfew : (h.add data).full.length ≤ 0xFFFF := by
    by_cases hopen : h.opens data.length = true
    · rw [HeapNode.add_of_opens hopen]
      exact hcount hopen
    · rw [HeapNode.add_of_fits hopen]
      exact hfull
  have hhid := HeapNode.lastHid_eq_mark hpacked hfew
  have hmark := HeapNode.mark_lt_add hk.packed data
  have hsome : (hids ++ [some (h.add data).lastHid]).filterMap id =
      hids.filterMap id ++ [(h.add data).mark] := by simp [hhid]
  refine ⟨by simp [hk.length], hpacked, ?_, ?_, ?_, .inl ?_, .inl hfew⟩
  · intro k hid item hget hitem
    rcases Nat.lt_trichotomy k hids.length with hlt | rfl | hgt
    · rw [List.getElem?_append_left hlt] at hget
      rw [List.getElem?_append_left (hk.length ▸ hlt)] at hitem
      exact HeapNode.hasItem_add_of (hk.found k hid item hget hitem)
    · rw [List.getElem?_concat_length] at hget
      rw [hk.length, List.getElem?_concat_length] at hitem
      cases hget
      cases hitem
      exact HeapNode.hasItem_add
    · rw [List.getElem?_eq_none (by simp; omega)] at hget
      cases hget
  · rw [hsome]
    refine List.pairwise_append.2 ⟨hk.ascending, List.pairwise_singleton _ _, ?_⟩
    intro hid hmem _ hlast
    rw [List.mem_singleton.1 hlast]
    exact (hk.below hid hmem).trans_lt hmark
  · intro hid hmem
    rw [hsome] at hmem
    rcases List.mem_append.1 hmem with hmem | hmem
    · exact (hk.below hid hmem).trans hmark.le
    · rw [List.mem_singleton.1 hmem]
  · rw [hsome]
    refine List.mem_append.2 ?_
    rcases hk.first with hfirst | ⟨hnone, hempty⟩
    · exact .inl hfirst
    · right
      rw [HeapNode.add_of_fits (HeapNode.not_opens_of_empty hempty hlen), HeapNode.mark,
        StreamingHeap.items_push, hnone, hempty]
      exact List.mem_singleton.2 rfl

/-- One caught call on a heap that is not full. -/
theorem Step.kept {items : List Bytes} {hids : List (Option Nat)} {h h' : HeapNode} {data : Bytes}
    {r : Option Nat} (hstep : Step data h r h') (hk : Kept items hids h)
    (hfull : data.length ≤ maxAllocSize → h.full.length ≤ 0xFFFF) :
    Kept (items ++ [data]) (hids ++ [r]) h' := by
  cases hstep with
  | refused => exact hk.skip data
  | beyond hlen hcount => exact (hk.opened (hfull hlen) hcount).skip data
  | stored hlen hcount => exact hk.stored hlen (hfull hlen) hcount

/-- On a full heap, the next HID is the first again. -/
theorem Kept.past {items : List Bytes} {hids : List (Option Nat)} {h : HeapNode} {data : Bytes}
    (hk : Kept items hids h) (hlen : data.length ≤ maxAllocSize)
    (hfull : ¬h.full.length ≤ 0xFFFF) :
    ¬h.opens data.length = true ∧ (h.add data).lastHid = 32 ∧ 32 ∈ hids.filterMap id := by
  obtain ⟨hmany, hempty⟩ := hk.indexed.resolve_left hfull
  have hopen := HeapNode.not_opens_of_empty hempty hlen
  refine ⟨hopen, ?_, hk.first.resolve_right fun hnone => ?_⟩
  · rw [HeapNode.add_of_fits hopen, HeapNode.lastHid, StreamingHeap.items_push, hmany, hempty]
    rfl
  · rw [hnone.1] at hmany
    cases hmany

/-! ## A stream that has failed -/

theorem markInside_good (w : NdbWriter) (ib cb : Nat) : (w.markInside ib cb).good = w.good := by
  unfold NdbWriter.markInside
  split <;> rfl

theorem addAMap_good (w : NdbWriter) : w.addAMap.good = w.good := by
  have hpmaps (ps : List Nat) (w : NdbWriter) :
      (ps.foldl (fun w p => w.markInside p kPageSize) w).good = w.good := by
    induction ps generalizing w with
    | nil => rfl
    | cons p ps ih => rw [List.foldl_cons, ih, markInside_good]
  simp only [NdbWriter.addAMap]
  split
  · rw [markInside_good, markInside_good]
  · rw [hpmaps, markInside_good]

theorem allocate_good {cb ib : Nat} {w w' : NdbWriter} (h : allocate cb w = .ok ib w') :
    w'.good = w.good := by
  have hmaps (n : Nat) (w : NdbWriter) : (NdbWriter.addAMap^[n] w).good = w.good := by
    induction n generalizing w with
    | zero => rfl
    | succ n ih => rw [Function.iterate_succ_apply, ih, addAMap_good]
  simp only [allocate, bind_eq_ok, get_eq_ok, set_eq_ok, pure_eq_ok] at h
  obtain ⟨_, _, ⟨rfl, rfl⟩, _, _, rfl, _, rfl⟩ := h
  unfold NdbWriter.markAllocated
  split
  · rfl
  · rw [markInside_good, NdbWriter.ensureAMapCount, hmaps]

/-- Once it has failed, no block is written. -/
theorem writeLeafChunk_fails {data : Bytes} {bid : Nat} {w w' : NdbWriter}
    (hw : w.good = false) : writeLeafChunk data w ≠ .ok bid w' := by
  intro h
  unfold writeLeafChunk emitBlock at h
  rcases ite_eq_ok.1 h with ⟨_, h⟩ | ⟨_, h⟩
  · obtain ⟨_, _, h, _⟩ := bind_eq_ok.1 h
    cases h
  simp only [bind_eq_ok, takeBid_eq_ok, writeAt, put_eq_ok] at h
  obtain ⟨ib, w₁, hall, _, _, ⟨_, rfl⟩, _, _, ⟨⟨hgood, _⟩, _⟩, _⟩ := h
  rw [show ({ w₁ with nextBidIndex := w₁.nextBidIndex + 1 } : NdbWriter).good = w₁.good from rfl,
    allocate_good hall, hw] at hgood
  cases hgood

/-- A block that has the size of a block is refused by the stream only. -/
theorem writeLeafChunk_throws {data : Bytes} {e : PstError} {w w' : NdbWriter}
    (hlen : data.length ≤ kMaxBlockData) (h : writeLeafChunk data w = .error e w') :
    w'.good = false := by
  unfold writeLeafChunk emitBlock at h
  rw [if_neg (not_lt.2 hlen)] at h
  rcases bind_eq_error.1 h with h | ⟨ib, w₁, _, h⟩
  · cases h
  rcases bind_eq_error.1 h with h | ⟨bid, w₂, _, h⟩
  · cases h
  rcases bind_eq_error.1 h with h | ⟨_, w₃, _, h⟩
  · unfold writeAt put at h
    rcases bind_eq_error.1 h with h | ⟨_, w₃, hget, h⟩
    · cases h
    rcases ite_eq_error.1 h with ⟨_, h⟩ | ⟨_, h⟩
    · cases h
    · cases h
      rfl
  · cases h

namespace StreamingHeap

/-- The ways an allocation can throw. -/
inductive Throws (data : Bytes) (w : NdbWriter) (s : StreamingHeap) :
    NdbWriter → StreamingHeap → Prop
  | long (hlen : maxAllocSize < data.length) : Throws data w s w s
  | stream {e : PstError} {w' : NdbWriter} (h0 : s.currentIndex ≠ 0)
      (hwrite : writeLeafChunk (s.render s.current s.currentIndex false) w = .error e w') :
      Throws data w s w' s
  | beyond {bid : Nat} {w' : NdbWriter} (hlen : data.length ≤ maxAllocSize)
      (h0 : s.currentIndex ≠ 0) (hcount : 0xFFFF < s.currentIndex + 1)
      (hwrite : writeLeafChunk (s.render s.current s.currentIndex false) w = .ok bid w') :
      Throws data w s w' { s.flushed false bid with currentIndex := s.currentIndex + 1 }

theorem alloc_throws {data : Bytes} {w w' : NdbWriter} {s s' : StreamingHeap} {e : PstError}
    (h : alloc data (w, s) = .error e (w', s')) : Throws data w s w' s' := by
  unfold alloc at h
  rcases ite_eq_error.1 h with ⟨hlen, h⟩ | ⟨hlen, h⟩
  · cases h
    exact .long hlen
  replace h : (ite (s.first data.length) _ _ : Streaming StreamingHeap Nat) (w, s) = _ := h
  rcases ite_eq_error.1 h with ⟨_, h⟩ | ⟨_, h⟩
  · cases h
  rcases ite_eq_error.1 h with ⟨_, h⟩ | ⟨h0, h⟩
  · cases h
  replace h : (ite (s.full data.length = true) _ _ : Streaming StreamingHeap Nat) (w, s) = _ := h
  rcases ite_eq_error.1 h with ⟨_, h⟩ | ⟨_, h⟩
  · rcases bind_eq_error.1 h with hflush | ⟨_, ⟨w₁, s₁⟩, hflush, h⟩
    · rcases bind_eq_error.1 hflush with hget | ⟨_, _, hget, hflush⟩
      · cases hget
      cases hget
      rcases bind_eq_error.1 hflush with hput | ⟨_, _, _, hmod⟩
      · obtain ⟨w₁, hwrite, heq⟩ := onto_eq_error.1 hput
        cases heq
        exact .stream h0 hwrite
      · cases hmod
    · obtain ⟨bid, hwrite, rfl⟩ := flushCurrent_eq_ok.1 hflush
      rcases bind_eq_error.1 h with hmod | ⟨_, _, hmod, h⟩
      · cases hmod
      cases modify_eq_ok.1 hmod
      rcases ite_eq_error.1 h with ⟨hcount, h⟩ | ⟨_, h⟩
      · cases h
        exact .beyond (not_lt.1 hlen) h0 hcount hwrite
      · cases h
  · cases h

theorem Allocates.good {data : Bytes} {w w' : NdbWriter} {s s' : StreamingHeap} {hid : Nat}
    (hall : Allocates data w s hid w' s') (hgood : w'.good = true) : w.good = true := by
  cases hall with
  | first => exact hgood
  | second => exact hgood
  | current => exact hgood
  | next _ _ _ hwrite =>
    by_contra hno
    exact writeLeafChunk_fails (eq_false_of_ne_true hno) hwrite

/-- The heap mirrors an in-memory heap, and holds on disk what it should while the stream is
good. -/
structure Tracks (w : NdbWriter) (s : StreamingHeap) (h : HeapNode) : Prop extends Mirrors s h where
  packed : Packed h.blocks
  follows : w.good = true → Sound w ∧ Follows w s h

theorem tracks_new {w : NdbWriter} (hw : w.good = true → Sound w) (clientSig : Byte) :
    Tracks w { clientSig } { clientSig } :=
  ⟨⟨rfl, fun _ => ⟨rfl, rfl⟩, fun h0 => absurd rfl h0⟩, HeapNode.packed_new clientSig,
    fun hgood => ⟨hw hgood, follows_new w clientSig⟩⟩

theorem Throws.tracks {data : Bytes} {w w' : NdbWriter} {s s' : StreamingHeap} {h : HeapNode}
    (hthrow : Throws data w s w' s') (ht : Tracks w s h) :
    ∃ h', Step data h none h' ∧ Tracks w' s' h' := by
  cases hthrow with
  | long hlen => exact ⟨h, .refused, ht⟩
  | stream h0 hwrite =>
    have hroomy : s.current.Roomy s.currentIndex :=
      ht.packed _ _ (HeapNode.getElem?_blocks.2 (.inr ⟨ht.index, ht.later h0⟩))
    have hbad := writeLeafChunk_throws (s.render_size false hroomy) hwrite
    refine ⟨h, .refused, ht.toMirrors, ht.packed, fun hgood => ?_⟩
    rw [hbad] at hgood
    cases hgood
  | beyond hlen h0 hcount hwrite =>
    have hlength : h.blocks.length = s.currentIndex + 1 := by
      rw [HeapNode.blocks, List.length_append, ht.index]
      rfl
    refine ⟨_, .beyond hlen (hlength ▸ hcount), ⟨hlength.symm, fun hz => ?_, fun _ => rfl⟩,
      HeapNode.packed_opened ht.packed, fun _ => ?_⟩
    · exact absurd hz (Nat.succ_ne_zero s.currentIndex)
    · cases hgood : w.good with
      | false => exact absurd hwrite (writeLeafChunk_fails hgood)
      | true =>
        obtain ⟨hs, hf⟩ := ht.follows hgood
        obtain ⟨hg, hf'⟩ := flush_follows h0 hwrite hs hf
        exact ⟨hg.sound, hf'⟩

theorem attempt_alloc (data : Bytes) {w : NdbWriter} {s : StreamingHeap} {h : HeapNode}
    (ht : Tracks w s h) :
    ∃ h', Step data h (attempt (alloc data) (w, s)).1 h' ∧
      Tracks (attempt (alloc data) (w, s)).2.1 (attempt (alloc data) (w, s)).2.2 h' := by
  cases hrun : alloc data (w, s) with
  | error e t =>
    obtain ⟨w', s'⟩ := t
    rw [attempt_eq_none.2 ⟨e, hrun⟩]
    exact (alloc_throws hrun).tracks ht
  | ok hid t =>
    obtain ⟨w', s'⟩ := t
    rw [attempt_eq_some.2 hrun]
    obtain ⟨hlen, hall⟩ := alloc_allocates hrun
    obtain ⟨hcount, rfl, hm⟩ := hall.mirrors ht.toMirrors
    refine ⟨h.add data, .stored hlen hcount, hm, HeapNode.add_packed ht.packed hlen, ?_⟩
    intro hgood
    obtain ⟨hs, hf⟩ := ht.follows (hall.good hgood)
    obtain ⟨hg, _, hf'⟩ := alloc_follows hrun hs hf
    exact ⟨hg.sound, hf'⟩

end StreamingHeap

/-! ## Faithful HIDs -/

/-- Each HID returned leads to the octets it was returned for. -/
def Resolves (items : List Bytes) (hids : List (Option Nat)) (blocks : List Bytes) : Prop :=
  ∀ (k hid : Nat) (item : Bytes), hids[k]? = some (some hid) → items[k]? = some item →
    heapItem blocks hid = some item

/-- No HID is returned twice, and the stream resolves them all. -/
def HeapNode.Faithful (clientSig : Byte) (items : List Bytes) : Prop :=
  let (hids, h) := tryEach alloc items { clientSig }
  (hids.filterMap id).Nodup ∧
    ∀ userRoot, Resolves items hids (pieces kMaxBlockData (h.setUserRoot userRoot).serialize)

/-- No HID is returned twice, and a data tree that gets finished resolves them all. -/
def StreamingHeap.Faithful (clientSig : Byte) (w : NdbWriter) (items : List Bytes) : Prop :=
  let (hids, w', s) := tryEach alloc items (w, { clientSig })
  (hids.filterMap id).Nodup ∧ ∀ userRoot bid t, finish (w', s.setUserRoot userRoot) = .ok bid t →
    ∃ blocks, readTree t.1.store bid = some blocks ∧ Resolves items hids blocks

/-- The block index is not past 0xFFFF, unless the call is refused for its size. -/
def HeapNode.HasRoom (data : Bytes) (h : HeapNode) : Prop :=
  data.length ≤ maxAllocSize → h.full.length ≤ 0xFFFF

def StreamingHeap.HasRoom (data : Bytes) (t : NdbWriter × StreamingHeap) : Prop :=
  data.length ≤ maxAllocSize → t.2.currentIndex ≤ 0xFFFF

theorem Kept.resolves {items : List Bytes} {hids : List (Option Nat)} {h : HeapNode}
    (hk : Kept items hids h) {blocks : List Bytes} (himage : HeapImage blocks h.blocks) :
    Resolves items hids blocks := fun k hid item hhid hitem =>
  hk.indexed.item hk.packed himage (hk.found k hid item hhid hitem)

theorem Kept.nodup {items : List Bytes} {hids : List (Option Nat)} {h : HeapNode}
    (hk : Kept items hids h) : (hids.filterMap id).Nodup :=
  hk.ascending.imp fun hlt => hlt.ne

theorem not_nodup_of_again {hids rest : List (Option Nat)} {hid : Nat}
    (h : hid ∈ hids.filterMap id) : ¬((hids ++ some hid :: rest).filterMap id).Nodup := by
  rw [List.filterMap_append, List.filterMap_cons_some (f := id) rfl]
  intro hnodup
  exact (List.nodup_append.1 hnodup).2.2 hid h hid List.mem_cons_self rfl

namespace HeapNode

theorem tryEach_kept {clientSig : Byte} {items : List Bytes}
    (hall : AtEach HasRoom alloc items { clientSig }) :
    Kept items (tryEach alloc items { clientSig }).1 (tryEach alloc items { clientSig }).2 := by
  refine tryEach_rule (I := Kept) ?_ (kept_new clientSig) hall
  intro done results data h hroom hk
  exact (attempt_alloc data h).kept hk hroom

theorem not_faithful_of_past {clientSig : Byte} {items : List Bytes}
    (h : ¬AtEach HasRoom alloc items { clientSig }) : ¬Faithful clientSig items := by
  obtain ⟨done, data, rest, rfl, hdone, hpast⟩ := exists_first_of_not_atEach h
  rw [HasRoom, Classical.not_imp] at hpast
  obtain ⟨hlen, hfull⟩ := hpast
  have hk := tryEach_kept hdone
  obtain ⟨hopen, hhid, hagain⟩ := hk.past hlen hfull
  have hrun := attempt_eq_some.2
    (alloc_eq_ok.2 ⟨hlen, fun ho => absurd ho hopen, rfl, hhid⟩)
  rintro ⟨hnodup, _⟩
  rw [tryEach_append, tryEach, hrun] at hnodup
  exact not_nodup_of_again hagain hnodup

theorem faithful_iff {clientSig : Byte} {items : List Bytes} :
    Faithful clientSig items ↔ AtEach HasRoom alloc items { clientSig } := by
  refine ⟨fun h => by_contra fun hno => not_faithful_of_past hno h, fun hall => ?_⟩
  have hk := tryEach_kept hall
  refine ⟨hk.nodup, fun userRoot => hk.resolves ?_⟩
  rw [pieces_serialize (by exact hk.packed)]
  exact rendered_image (h := setUserRoot userRoot _) hk.packed

end HeapNode

namespace StreamingHeap

theorem tryEach_kept {clientSig : Byte} {w : NdbWriter} {items : List Bytes}
    (hw : w.good = true → Sound w) (hall : AtEach HasRoom alloc items (w, { clientSig })) :
    ∃ h, Kept items (tryEach alloc items (w, { clientSig })).1 h ∧
      Tracks (tryEach alloc items (w, { clientSig })).2.1
        (tryEach alloc items (w, { clientSig })).2.2 h := by
  refine tryEach_rule (I := fun done results t => ∃ h, Kept done results h ∧ Tracks t.1 t.2 h) ?_
    ⟨_, kept_new clientSig, tracks_new hw clientSig⟩ hall
  rintro done results data ⟨w, s⟩ hroom ⟨h, hk, ht⟩
  obtain ⟨h', hstep, ht'⟩ := attempt_alloc data ht
  exact ⟨h', hstep.kept hk fun hlen => ht.index ▸ hroom hlen, ht'⟩

theorem alloc_current {data : Bytes} {w : NdbWriter} {s : StreamingHeap}
    (hlen : data.length ≤ maxAllocSize) (h0 : s.currentIndex ≠ 0)
    (hfull : s.full data.length = false) : alloc data (w, s) =
      .ok (makeHid s.currentIndex (s.current.items.length + 1))
        (w, s.pushed s.currentIndex data) := by
  have hfirst : ¬s.first data.length := fun h => h0 h.1
  unfold alloc
  rw [if_neg (not_lt.2 hlen)]
  show (ite (s.first data.length) _ _ : Streaming StreamingHeap Nat) (w, s) = _
  rw [if_neg hfirst, if_neg h0]
  show (ite (s.full data.length = true) _ _ : Streaming StreamingHeap Nat) (w, s) = _
  rw [if_neg (by rw [hfull]; decide), ← items_push s.current data]
  rfl

theorem not_faithful_of_past {clientSig : Byte} {w : NdbWriter} {items : List Bytes}
    (hw : w.good = true → Sound w) (h : ¬AtEach HasRoom alloc items (w, { clientSig })) :
    ¬Faithful clientSig w items := by
  obtain ⟨done, data, rest, rfl, hdone, hpast⟩ := exists_first_of_not_atEach h
  rw [HasRoom, Classical.not_imp] at hpast
  obtain ⟨hlen, hpast⟩ := hpast
  obtain ⟨h, hk, ht⟩ := tryEach_kept hw hdone
  have h0 : (tryEach alloc done (w, { clientSig })).2.2.currentIndex ≠ 0 := by omega
  obtain ⟨hopen, hhid, hagain⟩ := hk.past hlen (ht.index ▸ hpast)
  have hrun := attempt_eq_some.2 (alloc_current (w := (tryEach alloc done (w, { clientSig })).2.1)
    hlen h0 ((ht.full_eq h0).trans (eq_false_of_ne_true hopen)))
  rw [← items_push _ data, ht.index, ← ht.later h0] at hrun
  rw [HeapNode.add_of_fits hopen] at hhid
  rintro ⟨hnodup, _⟩
  rw [tryEach_append, tryEach, hrun] at hnodup
  rw [← hhid] at hagain
  exact not_nodup_of_again hagain hnodup

/-- A stream that has failed never gets a data tree finished. -/
theorem finish_good {w w' : NdbWriter} {s s' : StreamingHeap} {bid : Nat}
    (h : finish (w, s) = .ok bid (w', s')) : w.good = true := by
  by_contra hno
  have hbad := eq_false_of_ne_true hno
  unfold finish at h
  obtain ⟨_, _, hget, h⟩ := bind_eq_ok.1 h
  cases hget
  rcases ite_eq_ok.1 h with ⟨_, h⟩ | ⟨_, h⟩
  · obtain ⟨_, _, h, _⟩ := bind_eq_ok.1 h
    cases h
  obtain ⟨_, _, hset, h⟩ := bind_eq_ok.1 h
  cases set_eq_ok.1 hset
  rcases ite_eq_ok.1 h with ⟨_, h⟩ | ⟨_, h⟩
  · obtain ⟨_, _, _, hwrite, _⟩ := finishFirst_spec h
    exact writeLeafChunk_fails hbad hwrite
  · obtain ⟨_, ⟨w₁, s₁⟩, hflush, _⟩ := bind_eq_ok.1 h
    obtain ⟨_, hwrite, _⟩ := flushCurrent_eq_ok.1 hflush
    exact writeLeafChunk_fails hbad hwrite

theorem faithful_iff {clientSig : Byte} {w : NdbWriter} {items : List Bytes}
    (hw : w.good = true → Sound w) :
    Faithful clientSig w items ↔ AtEach HasRoom alloc items (w, { clientSig }) := by
  refine ⟨fun h => by_contra fun hno => not_faithful_of_past hw hno h, fun hall => ?_⟩
  obtain ⟨h, hk, ht⟩ := tryEach_kept hw hall
  refine ⟨hk.nodup, ?_⟩
  rintro userRoot bid ⟨w₁, s₁⟩ hfinish
  obtain ⟨hs, hf⟩ := ht.follows (finish_good hfinish)
  obtain ⟨hg, htree⟩ := finish_tree hfinish hs (hf.setUserRoot userRoot)
  exact ⟨_, htree _ hg.sound.covers, hk.resolves (renderAll_image hk.packed fillLevels_length)⟩

end StreamingHeap

/-- The HIDs keep to their allocations exactly when no call meets a heap that is full. -/
theorem full_heap_faithful_iff {clientSig : Byte} {w : NdbWriter} {items : List Bytes}
    (hw : w.good = true → Sound w) :
    (HeapNode.Faithful clientSig items ↔
      AtEach HeapNode.HasRoom HeapNode.alloc items { clientSig }) ∧
    (StreamingHeap.Faithful clientSig w items ↔
      AtEach StreamingHeap.HasRoom StreamingHeap.alloc items (w, { clientSig })) :=
  ⟨HeapNode.faithful_iff, StreamingHeap.faithful_iff hw⟩

/-- A call that is refused for its size leaves both heaps as they were. -/
theorem full_heap_faithful_refused : ∃ w, (w.good = true → Sound w) ∧
    (HeapNode.Faithful kHnSigTC [[1, 2], List.replicate 9000 0, [3]] ↔
      AtEach HeapNode.HasRoom HeapNode.alloc [[1, 2], List.replicate 9000 0, [3]]
        { clientSig := kHnSigTC }) ∧
    (StreamingHeap.Faithful kHnSigTC w [[1, 2], List.replicate 9000 0, [3]] ↔
      AtEach StreamingHeap.HasRoom StreamingHeap.alloc [[1, 2], List.replicate 9000 0, [3]]
        (w, { clientSig := kHnSigTC })) := by
  obtain ⟨_, w, _, hw⟩ := openWriter_returns
  exact ⟨w, fun _ => hw.1.sound, full_heap_faithful_iff fun _ => hw.1.sound⟩

/-! ## One block for each allocation -/

/-- An allocation that shares a block with no other of its size. -/
@[irreducible] def wide : Bytes := List.replicate maxAllocSize 0

theorem wide_length : wide.length = maxAllocSize := by
  unfold wide
  exact List.length_replicate

/-- `n` blocks before the last, which holds one wide allocation. -/
structure WideTo (n : Nat) (h : HeapNode) : Prop where
  full : h.full.length = n
  last : h.last = ({} : HeapBlock).push wide

theorem WideTo.opens {n : Nat} {h : HeapNode} (hn : WideTo n h) :
    h.opens wide.length = true := by
  have hused : (({} : HeapBlock).push wide).used = maxAllocSize :=
    (Nat.zero_add _).trans wide_length
  have hmax : maxAllocSize = 8101 := rfl
  have hno : ¬blockHeaderSize n + 8101 + 8101 + pageMapSize (1 + 1) + 1 ≤ kMaxBlockData := by
    unfold kMaxBlockData
    omega
  have hfits : h.last.fits h.full.length wide.length = false := by
    rw [HeapBlock.fits, hn.last, hused, wide_length, hn.full, hmax]
    exact decide_eq_false hno
  rw [HeapNode.opens, hfits]
  rfl

theorem HeapNode.alloc_over {h : HeapNode} {data : Bytes} (hlen : data.length ≤ maxAllocSize)
    (hopen : h.opens data.length = true) (hcount : 0xFFFF < h.blocks.length) :
    ∃ e, alloc data h = .error e { h with full := h.blocks, last := {} } := by
  unfold alloc
  rw [if_neg (not_lt.2 hlen)]
  show ∃ e, (ite (h.opens data.length = true) _ _ : EStateM PstError HeapNode Nat) h = _
  rw [if_pos hopen]
  show ∃ e, (ite (0xFFFF < h.blocks.length) _ _ : EStateM PstError HeapNode Nat) _ = _
  rw [if_pos hcount]
  exact ⟨_, rfl⟩

theorem WideTo.next {n : Nat} {h : HeapNode} (hn : WideTo n h) (hfew : n < 0xFFFF) :
    WideTo (n + 1) (attempt (HeapNode.alloc wide) h).2 := by
  have hblocks : h.blocks.length = n + 1 := by
    rw [HeapNode.blocks, List.length_append, hn.full]
    rfl
  have hrun := attempt_eq_some.2
    (HeapNode.alloc_eq_ok.2 ⟨wide_length.le, fun _ => hblocks.trans_le hfew, rfl, rfl⟩)
  rw [hrun, HeapNode.add_of_opens hn.opens]
  exact ⟨hblocks, rfl⟩

theorem wideTo_run (clientSig : Byte) {n : Nat} (hn : n ≤ 0xFFFF) :
    WideTo n (tryEach HeapNode.alloc (List.replicate (n + 1) wide) { clientSig }).2 := by
  induction n with
  | zero =>
    have hopen : ¬({ clientSig } : HeapNode).opens wide.length = true :=
      HeapNode.not_opens_of_empty rfl wide_length.le
    have hrun := attempt_eq_some.2
      (HeapNode.alloc_eq_ok.2 ⟨wide_length.le, fun ho => absurd ho hopen, rfl, rfl⟩)
    rw [List.replicate_one, tryEach, hrun, HeapNode.add_of_fits hopen]
    exact ⟨rfl, rfl⟩
  | succ n ih =>
    rw [List.replicate_succ', tryEach_append]
    exact (ih (by omega)).next (by omega)

/-- After 65537 wide allocations, the last of them refused, the next gets the first one's HID. -/
theorem full_heap_gives_out_first_hid_again :
    ¬HeapNode.Faithful kHnSigPC (List.replicate 65538 wide) := by
  refine HeapNode.not_faithful_of_past fun hall => ?_
  rw [show 65538 = (0xFFFF + 1) + 2 from rfl, List.replicate_add] at hall
  obtain ⟨_, hlast, _⟩ := hall.right
  have hwide := wideTo_run kHnSigPC (le_refl 0xFFFF)
  generalize (tryEach HeapNode.alloc (List.replicate (0xFFFF + 1) wide)
    { clientSig := kHnSigPC }).2 = h at hwide hlast
  have hblocks : h.blocks.length = 0x10000 := by
    rw [HeapNode.blocks, List.length_append, hwide.full]
    rfl
  have hfull : ¬(attempt (HeapNode.alloc wide) h).2.full.length ≤ 0xFFFF := by
    obtain ⟨e, hrun⟩ := HeapNode.alloc_over wide_length.le hwide.opens
      (hblocks ▸ (by decide : 0xFFFF < 0x10000))
    rw [attempt_eq_none.2 ⟨e, hrun⟩]
    show ¬h.blocks.length ≤ 0xFFFF
    rw [hblocks]
    decide
  exact hfull (hlast wide_length.le)

end Pst
end Imap2Pst
