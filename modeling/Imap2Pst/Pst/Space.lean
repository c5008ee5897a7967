import Imap2Pst.Pst.Ndb
import Mathlib.Data.List.GetD

/-!
# Pst.Space

What the bump allocator and the allocation maps do. `place` finds room that meets no reserved
page (`place_spec`), so that what is handed out lies in one span of the maps; the maps record
exactly the ranges handed out and the pages at fixed positions (`Maps`).

* `markInside_spec` — one range marked in a map that exists.
* `addAMap_maps`, `ensureAMapCount_maps` — new maps come with their fixed pages marked.
* `allocate_spec`, `allocatePage_spec` — what an allocation hands out, and what the maps say then.
-/

namespace Imap2Pst
namespace Pst

open CxxStd

/-! ## Reserved pages -/

def amapPage (k : Nat) : Nat := kFirstAMapPos + k * kAMapSpan

def pmapPage (j : Nat) : Nat := kFirstPMapPos + j * kPMapSpan

theorem isReservedPage_iff {p : Nat} : isReservedPage p = true ↔
    p = 16896 ∨ 17408 ≤ p ∧ p % 253952 = 17408 ∨ 17920 ≤ p ∧ p % 2031616 = 17920 := by
  unfold isReservedPage kDListPos kFirstAMapPos kFirstPMapPos kAMapSpan kPMapSpan
  split
  · simp_all
  · split
    · simp only [Bool.false_eq_true, false_iff]
      omega
    · split
      · simp only [true_iff]
        omega
      · simp only [Bool.and_eq_true, decide_eq_true_eq]
        omega

theorem isReservedPage_amapPage (k : Nat) : isReservedPage (amapPage k) = true := by
  rw [isReservedPage_iff]
  unfold amapPage kFirstAMapPos kAMapSpan
  omega

theorem isReservedPage_pmapPage (j : Nat) : isReservedPage (pmapPage j) = true := by
  rw [isReservedPage_iff]
  unfold pmapPage kFirstPMapPos kPMapSpan
  omega

theorem dvd_of_isReservedPage {p : Nat} (h : isReservedPage p = true) : kPageSize ∣ p := by
  rw [isReservedPage_iff] at h
  unfold kPageSize
  omega

/-- The range meets no reserved page. -/
def Unreserved (ib cb : Nat) : Prop :=
  ∀ p, isReservedPage p = true → File.Apart (p, kPageSize) (ib, cb)

theorem clash_eq_none {cursor cb p : Nat} (h : clash cursor cb = none) (hp : kPageSize ∣ p)
    (hres : isReservedPage p = true) : p + kPageSize ≤ cursor ∨ cursor + cb ≤ p := by
  by_contra hmeet
  rw [not_or, not_le, not_le] at hmeet
  obtain ⟨k, hk⟩ := hp
  replace hk : p = 512 * k := hk
  replace hmeet : cursor < p + 512 ∧ p < cursor + cb := hmeet
  unfold clash at h
  rw [List.find?_eq_none] at h
  refine h p (List.mem_map.2 ⟨k - cursor / kPageSize, List.mem_range.2 ?_, ?_⟩) ?_
  · rw [lt_passes (by decide)]
    show (k - cursor / 512) * 512 < cursor + cb - cursor / 512 * 512
    omega
  · show cursor / 512 * 512 + (k - cursor / 512) * 512 = p
    omega
  · rw [hres, Bool.and_true]
    exact decide_eq_true hmeet.1

theorem clash_eq_some {cursor cb p : Nat} (h : clash cursor cb = some p) :
    cursor < p + kPageSize ∧ p < cursor + cb ∧ kPageSize ∣ p ∧ isReservedPage p = true := by
  unfold clash at h
  have hmem := List.mem_of_find?_eq_some h
  have htest := List.find?_some h
  simp only [Bool.and_eq_true, decide_eq_true_eq] at htest
  obtain ⟨k, hk, rfl⟩ := List.mem_map.1 hmem
  rw [List.mem_range, lt_passes (by decide)] at hk
  refine ⟨htest.1, by omega, ?_, htest.2⟩
  exact Nat.dvd_add (Nat.dvd_mul_left _ _) (Nat.dvd_mul_left _ _)

theorem unreserved_of_clash {cursor cb : Nat} (h : clash cursor cb = none) :
    Unreserved cursor cb := fun _ hp => clash_eq_none h (dvd_of_isReservedPage hp) hp

/-- After a clash at most one more page is in the way: a PMap page next to an AMap page. -/
theorem place_spec {cursor cb : Nat} (hcursor : kFirstDataPos ≤ cursor) (hcb : cb ≤ 8192) :
    cursor ≤ place cursor cb ∧ (place cursor cb = cursor ∨ kPageSize ∣ place cursor cb) ∧
      Unreserved (place cursor cb) cb ∧ place cursor cb < cursor + cb + 1024 := by
  unfold kFirstDataPos at hcursor
  unfold place
  rw [placeFrom]
  cases h₁ : clash cursor cb with
  | none =>
    dsimp only
    exact ⟨le_rfl, .inl rfl, unreserved_of_clash h₁, by omega⟩
  | some p =>
    obtain ⟨hlt, hin, hdvd, hres⟩ := clash_eq_some h₁
    have hmod := isReservedPage_iff.1 hres
    have hdvd' : kPageSize ∣ p + kPageSize := Nat.dvd_add hdvd (Nat.dvd_refl _)
    simp only
    rw [placeFrom]
    cases h₂ : clash (p + kPageSize) cb with
    | none =>
      simp only
      unfold kPageSize at *
      exact ⟨by omega, .inr hdvd', unreserved_of_clash h₂, by omega⟩
    | some q =>
      obtain ⟨hlt', hin', hdvdq, hresq⟩ := clash_eq_some h₂
      have hmodq := isReservedPage_iff.1 hresq
      have hdvdq' : kPageSize ∣ q + kPageSize := Nat.dvd_add hdvdq (Nat.dvd_refl _)
      simp only
      rw [placeFrom]
      have hnone : clash (q + kPageSize) cb = none := by
        cases h₃ : clash (q + kPageSize) cb with
        | none => rfl
        | some r =>
          obtain ⟨hlt'', hin'', _, hresr⟩ := clash_eq_some h₃
          have hmodr := isReservedPage_iff.1 hresr
          unfold kPageSize at *
          omega
      rw [hnone]
      simp only
      unfold kPageSize at *
      exact ⟨by omega, .inr hdvdq', unreserved_of_clash hnone, by omega⟩

/-! ## Bitmaps -/

theorem or_bitMask {x : Byte} {i j : Nat} :
    (x ||| bitMask i) &&& bitMask j ≠ 0 ↔ x &&& bitMask j ≠ 0 ∨ i % 8 = j % 8 := by
  have hsame : ∀ a < 8, ∀ b < 8, (bitMask a &&& bitMask b = 0 ↔ a ≠ b) := by decide
  have hmod (k : Nat) : bitMask k = bitMask (k % 8) := by simp [bitMask]
  have hij := hsame (i % 8) (Nat.mod_lt _ (by decide)) (j % 8) (Nat.mod_lt _ (by decide))
  have hdistrib (m k : Byte) : (x ||| m) &&& k = (x &&& k) ||| (m &&& k) := by
    rw [← UInt8.toBitVec_inj]
    exact BitVec.and_or_distrib_right
  rw [hmod i, hmod j, hdistrib, ne_eq, UInt8.or_eq_zero_iff, hij]
  by_cases hx : x &&& bitMask (j % 8) = 0 <;> simp [hx]

/-- Whether a bit of a map is set. -/
def bitSet (bits : Bytes) (bit : Nat) : Bool := bits.getD (bit / 8) 0 &&& bitMask bit ≠ 0

theorem setBits_spec {n : Nat} (bit : Nat) (bits : Bytes) (h : bit + n ≤ 8 * bits.length) :
    (setBits n bit bits).2 = false ∧ (setBits n bit bits).1.length = bits.length ∧
      ∀ j, bitSet (setBits n bit bits).1 j = true ↔
        bitSet bits j = true ∨ (bit ≤ j ∧ j < bit + n) := by
  induction n generalizing bit bits with
  | zero =>
    refine ⟨rfl, rfl, fun j => ?_⟩
    have hno : ¬ (bit ≤ j ∧ j < bit + 0) := by omega
    simp only [setBits, hno, or_false]
  | succ n ih =>
    have hin : ¬ bits.length ≤ bit / 8 := by omega
    simp only [setBits, if_neg hin]
    obtain ⟨hspill, hlen, hset⟩ := ih (bit + 1)
      (bits.modify (bit / 8) (· ||| bitMask bit)) (by rw [List.length_modify]; omega)
    refine ⟨hspill, by rw [hlen, List.length_modify], fun j => ?_⟩
    rw [hset j]
    have hone : bitSet (bits.modify (bit / 8) (· ||| bitMask bit)) j = true ↔
        bitSet bits j = true ∨ j = bit := by
      simp only [bitSet, decide_eq_true_eq, List.getD_eq_getElem?_getD, List.getElem?_modify]
      by_cases hbyte : bit / 8 = j / 8
      · rw [← hbyte, List.getElem?_eq_getElem (by omega)]
        simp only [if_true, Option.map_eq_map, Option.map_some, Option.getD_some]
        rw [or_bitMask]
        exact or_congr_right (by omega)
      · have hne : ¬ j = bit := by rintro rfl; exact hbyte rfl
        simp [hbyte, hne]
    rw [hone, or_assoc]
    exact or_congr_right (by omega)

/-! ## The maps -/

/-- The 64-octet slot `s` of the mapped area lies in the range. -/
def InRange (s : Nat) (range : Nat × Nat) : Prop :=
  range.1 ≤ kFirstAMapPos + s * kBlockAlign ∧ kFirstAMapPos + s * kBlockAlign < range.1 + range.2

/-- Slots of one map. -/
def kMapSlots : Nat := 496 * 8

/-- The bit of slot `s`. -/
def marked (amaps : List Bytes) (s : Nat) : Bool :=
  bitSet (amaps.getD (s / kMapSlots) []) (s % kMapSlots)

/-- The range starts and ends on slot boundaries and lies in the span of map `map`. -/
structure InSpan (map ib cb : Nat) : Prop where
  aligned : kBlockAlign ∣ ib
  whole : kBlockAlign ∣ cb
  start : amapPage map ≤ ib
  stop : ib + cb ≤ amapPage (map + 1)
  some : 0 < cb

/-- Marking a range in a map that exists sets exactly the bits of the range. -/
theorem markInside_spec {w : NdbWriter} {map ib cb : Nat} (hlen : ∀ m ∈ w.amaps, m.length = 496)
    (hmap : map < w.amaps.length) (hspan : InSpan map ib cb) :
    ∃ amaps, w.markInside ib cb = { w with amaps } ∧ amaps.length = w.amaps.length ∧
      (∀ m ∈ amaps, m.length = 496) ∧
      ∀ s, marked amaps s = true ↔ marked w.amaps s = true ∨ InRange s (ib, cb) := by
  obtain ⟨⟨a, ha⟩, ⟨n, hn⟩, hstart, hstop, hsome⟩ := hspan
  unfold amapPage kFirstAMapPos kAMapSpan at hstart hstop
  unfold kBlockAlign at ha hn
  have hge : ¬ ib < kFirstAMapPos := by unfold kFirstAMapPos; omega
  have hindex : (ib - kFirstAMapPos) / kAMapSpan = map := by
    unfold kFirstAMapPos kAMapSpan
    omega
  have hbits : alignUp cb kBlockAlign / kBlockAlign = n := by
    unfold alignUp kBlockAlign
    omega
  have hlen' : (w.amaps.getD map []).length = 496 := by
    rw [List.getD_eq_getElem _ _ hmap]
    exact hlen _ (List.getElem_mem hmap)
  generalize hfirst : (ib - (kFirstAMapPos + map * kAMapSpan)) / kBlockAlign = first
  have hfirst' : (ib - (17408 + map * 253952)) / 64 = first := hfirst
  obtain ⟨hspill, hsize, hset⟩ := setBits_spec (n := n) first (w.amaps.getD map [])
    (by omega)
  refine ⟨w.amaps.set map (setBits n first (w.amaps.getD map [])).1, ?_, by simp, ?_, ?_⟩
  · unfold NdbWriter.markInside
    rw [if_neg hge]
    simp only [hindex, hbits, hfirst, hspill, Bool.or_false]
  · intro m hm
    rcases List.mem_or_eq_of_mem_set hm with hm | rfl
    · exact hlen m hm
    · rw [hsize, hlen']
  · intro s
    unfold marked
    by_cases hs : s / kMapSlots = map
    · rw [hs, List.getD_eq_getElem _ _ (by simpa using hmap), List.getElem_set_self, hset]
      unfold InRange kFirstAMapPos kBlockAlign
      unfold kMapSlots at *
      exact or_congr_right (by omega)
    · have hout : ¬ InRange s (ib, cb) := by
        unfold InRange kFirstAMapPos kBlockAlign
        unfold kMapSlots at hs
        omega
      simp only [List.getD_eq_getElem?_getD, List.getElem?_set_ne (Ne.symm hs), hout, or_false]

/-- Marking several pages of one span. -/
theorem foldl_markInside {w : NdbWriter} {map : Nat} {ps : List Nat}
    (hlen : ∀ m ∈ w.amaps, m.length = 496) (hmap : map < w.amaps.length)
    (hps : ∀ p ∈ ps, InSpan map p kPageSize) :
    ∃ amaps, ps.foldl (fun w p => w.markInside p kPageSize) w = { w with amaps } ∧
      amaps.length = w.amaps.length ∧ (∀ m ∈ amaps, m.length = 496) ∧
      ∀ s, marked amaps s = true ↔
        marked w.amaps s = true ∨ ∃ p ∈ ps, InRange s (p, kPageSize) := by
  induction ps generalizing w with
  | nil => exact ⟨w.amaps, rfl, rfl, hlen, by simp⟩
  | cons p ps ih =>
    obtain ⟨amaps, heq, hsize, hlen', hset⟩ := markInside_spec hlen hmap (hps p (by simp))
    rw [List.foldl_cons, heq]
    obtain ⟨amaps', heq', hsize', hlen'', hset'⟩ := ih (w := { w with amaps }) hlen'
      (by rw [hsize]; exact hmap) fun q hq => hps q (by simp [hq])
    refine ⟨amaps', heq', by rw [hsize', hsize], hlen'', fun s => ?_⟩
    rw [hset', hset]
    simp only [List.mem_cons, exists_eq_or_imp, or_assoc]

/-- A page at a fixed position of the mapped area. -/
def InFixedPage (s : Nat) : Prop :=
  ∃ k, InRange s (amapPage k, kPageSize) ∨ InRange s (pmapPage k, kPageSize)

/-- The maps record exactly the ranges handed out and the pages at fixed positions. -/
structure Maps (taken : List (Nat × Nat)) (w : NdbWriter) : Prop where
  sizes : ∀ m ∈ w.amaps, m.length = 496
  last : w.lastAMapIb = amapPage (w.amaps.length - 1)
  spilled : w.spilled = false
  inside : ∀ r ∈ taken, r.1 + r.2 ≤ amapPage w.amaps.length
  bits : ∀ s, s < w.amaps.length * kMapSlots →
    (marked w.amaps s = true ↔ InFixedPage s ∨ ∃ r ∈ taken, InRange s r)

theorem marked_concat (amaps : List Bytes) (s : Nat) :
    marked (amaps ++ [List.replicate 496 0]) s = marked amaps s := by
  have hzero (bit : Nat) : bitSet (List.replicate 496 0) bit = bitSet [] bit := by
    unfold bitSet
    simp only [List.getD_eq_getElem?_getD, List.getElem?_replicate, List.getElem?_nil]
    split <;> rfl
  unfold marked
  simp only [List.getD_eq_getElem?_getD, List.getElem?_append]
  split
  · rfl
  · rename_i hge
    rw [List.getElem?_eq_none (by omega : amaps.length ≤ s / kMapSlots)]
    by_cases hlast : s / kMapSlots - amaps.length = 0
    · rw [hlast]
      exact hzero _
    · rw [List.getElem?_eq_none (show 1 ≤ s / kMapSlots - amaps.length by omega)]

theorem marked_of_ge {amaps : List Bytes} {s : Nat} (h : amaps.length * kMapSlots ≤ s) :
    marked amaps s = false := by
  have hge : amaps.length ≤ s / kMapSlots := by
    rw [Nat.le_div_iff_mul_le (by decide)]
    exact h
  unfold marked bitSet
  rw [List.getD_eq_default _ _ hge]
  simp

theorem eq_pmapPage {n p : Nat}
    (hp : p ∈ (if n = 0 then [kFirstPMapPos] else NdbWriter.pmapsOf (amapPage n))) :
    ∃ j, p = pmapPage j := by
  split at hp
  · rw [List.mem_singleton.1 hp]
    exact ⟨0, rfl⟩
  · obtain ⟨hp, _⟩ := List.mem_filter.1 hp
    obtain ⟨j, _, rfl⟩ := List.mem_map.1 hp
    exact ⟨j, rfl⟩

/-- The PMap pages `addAMap` marks are those of the new span. -/
theorem exists_pmap_iff {n s : Nat} (hs : n * kMapSlots ≤ s) (hs' : s < (n + 1) * kMapSlots) :
    (∃ p ∈ (if n = 0 then [kFirstPMapPos] else NdbWriter.pmapsOf (amapPage n)),
      InRange s (p, kPageSize)) ↔ ∃ j, InRange s (pmapPage j, kPageSize) := by
  unfold kMapSlots at hs hs'
  split
  · rename_i hn
    subst hn
    simp only [List.mem_singleton, exists_eq_left, InRange, pmapPage, kFirstPMapPos, kFirstAMapPos,
      kPMapSpan, kBlockAlign, kPageSize]
    constructor
    · intro h
      exact ⟨0, by omega⟩
    · rintro ⟨j, h⟩
      omega
  · constructor
    · rintro ⟨p, hp, hin⟩
      obtain ⟨hp, _⟩ := List.mem_filter.1 hp
      obtain ⟨j, _, rfl⟩ := List.mem_map.1 hp
      exact ⟨j, hin⟩
    · rintro ⟨j, hin⟩
      refine ⟨pmapPage j, List.mem_filter.2 ⟨List.mem_map.2 ⟨j, ?_, rfl⟩, ?_⟩, hin⟩
      · rw [List.mem_range, lt_passes (by decide)]
        simp only [InRange, amapPage, pmapPage, kFirstPMapPos, kFirstAMapPos, kPMapSpan, kAMapSpan,
          kBlockAlign, kPageSize] at *
        omega
      · refine decide_eq_true ?_
        simp only [InRange, amapPage, pmapPage, kFirstPMapPos, kFirstAMapPos, kPMapSpan, kAMapSpan,
          kBlockAlign, kPageSize] at *
        omega

theorem inSpan_amapPage (n : Nat) : InSpan n (amapPage n) kPageSize := by
  refine ⟨?_, by decide, le_rfl, ?_, by decide⟩ <;>
    simp only [amapPage, kFirstAMapPos, kAMapSpan, kBlockAlign, kPageSize] <;> omega

theorem inSpan_pmap {n p : Nat}
    (hp : p ∈ (if n = 0 then [kFirstPMapPos] else NdbWriter.pmapsOf (amapPage n))) :
    InSpan n p kPageSize := by
  split at hp
  · rename_i hn
    subst hn
    rw [List.mem_singleton.1 hp]
    exact ⟨by decide, by decide, by decide, by decide, by decide⟩
  · obtain ⟨hp, hle⟩ := List.mem_filter.1 hp
    obtain ⟨j, hj, rfl⟩ := List.mem_map.1 hp
    rw [List.mem_range, lt_passes (by decide)] at hj
    rw [decide_eq_true_eq] at hle
    refine ⟨?_, by decide, hle, ?_, by decide⟩ <;>
      simp only [amapPage, kFirstPMapPos, kFirstAMapPos, kPMapSpan, kAMapSpan, kBlockAlign,
        kPageSize] at * <;> omega

/-- The pages a new map at `p` marks. -/
theorem addAMap_at (w : NdbWriter) {p : Nat}
    (hp : kFirstAMapPos + w.amaps.length * kAMapSpan = p) :
    w.addAMap = (p :: if w.amaps.length = 0 then [kFirstPMapPos] else NdbWriter.pmapsOf p).foldl
      (fun w p => w.markInside p kPageSize)
      { w with amaps := w.amaps ++ [List.replicate 496 0], lastAMapIb := p } := by
  unfold NdbWriter.addAMap
  dsimp only
  rw [hp, List.foldl_cons]
  by_cases hn : w.amaps.length = 0
  · rw [if_pos hn, if_pos hn, List.foldl_cons, List.foldl_nil]
  · rw [if_neg hn, if_neg hn]

/-- A new map comes with its own page and its span's PMap page marked. -/
theorem addAMap_maps {taken : List (Nat × Nat)} {w : NdbWriter} (h : Maps taken w) :
    ∃ amaps, w.addAMap = { w with amaps, lastAMapIb := amapPage w.amaps.length } ∧
      amaps.length = w.amaps.length + 1 ∧ Maps taken w.addAMap := by
  obtain ⟨hsizes, hlast, hspilled, hinside, hbits⟩ := h
  let w₁ : NdbWriter :=
    { w with
      amaps := w.amaps ++ [List.replicate 496 0]
      lastAMapIb := amapPage w.amaps.length }
  let ps := if w.amaps.length = 0 then [kFirstPMapPos] else NdbWriter.pmapsOf (amapPage w.amaps.length)
  have hpasses : w.addAMap =
      (amapPage w.amaps.length :: ps).foldl (fun w p => w.markInside p kPageSize) w₁ :=
    addAMap_at w rfl
  have hspans : ∀ p ∈ amapPage w.amaps.length :: ps, InSpan w.amaps.length p kPageSize := by
    intro p hp
    rcases List.mem_cons.1 hp with rfl | hp
    · exact inSpan_amapPage _
    · exact inSpan_pmap hp
  have hsizes₁ : ∀ m ∈ w₁.amaps, m.length = 496 := by
    intro m hm
    rcases List.mem_append.1 hm with hm | hm
    · exact hsizes m hm
    · rw [List.mem_singleton.1 hm, List.length_replicate]
  have hlen₁ : w₁.amaps.length = w.amaps.length + 1 := List.length_append
  obtain ⟨amaps, heq, hsize, hsizes', hset⟩ := foldl_markInside hsizes₁ (by omega) hspans
  rw [hpasses, heq]
  have hlast' : amapPage w.amaps.length = amapPage (amaps.length - 1) := by
    rw [hsize, hlen₁, Nat.add_sub_cancel]
  refine ⟨amaps, rfl, by rw [hsize, hlen₁], hsizes', hlast', hspilled, ?_, ?_⟩
  · intro r hr
    have hle := hinside r hr
    show r.1 + r.2 ≤ amapPage amaps.length
    rw [hsize, hlen₁]
    unfold amapPage at *
    rw [Nat.succ_mul]
    omega
  · intro s hs
    replace hs : s < (w.amaps.length + 1) * kMapSlots := by rwa [← hlen₁, ← hsize]
    show marked amaps s = true ↔ _
    rw [hset, marked_concat]
    simp only [List.mem_cons, exists_eq_or_imp]
    by_cases hold : s < w.amaps.length * kMapSlots
    · rw [hbits s hold]
      constructor
      · rintro (h | h | ⟨p, hp, h⟩)
        · exact h
        · exact .inl ⟨_, .inl h⟩
        · obtain ⟨j, rfl⟩ := eq_pmapPage hp
          exact .inl ⟨j, .inr h⟩
      · exact .inl
    · have hpmap := exists_pmap_iff (not_lt.1 hold) hs
      rw [hpmap, marked_of_ge (not_lt.1 hold)]
      constructor
      · rintro (h | h | ⟨j, h⟩)
        · cases h
        · exact .inl ⟨_, .inl h⟩
        · exact .inl ⟨j, .inr h⟩
      · rintro (⟨k, h | h⟩ | ⟨r, hr, h⟩)
        · have hk : k = w.amaps.length := by
            simp only [InRange, amapPage, kFirstAMapPos, kAMapSpan, kBlockAlign, kPageSize,
              kMapSlots] at *
            omega
          rw [hk] at h
          exact .inr (.inl h)
        · exact .inr (.inr ⟨k, h⟩)
        · -- what was handed out lies below the new span
          have hle := hinside r hr
          simp only [InRange, amapPage, kFirstAMapPos, kAMapSpan, kBlockAlign, kMapSlots] at *
          omega

theorem iterate_addAMap_maps {taken : List (Nat × Nat)} {w : NdbWriter} (h : Maps taken w)
    (k : Nat) : ∃ amaps last, NdbWriter.addAMap^[k] w = { w with amaps, lastAMapIb := last } ∧
      amaps.length = w.amaps.length + k ∧ Maps taken (NdbWriter.addAMap^[k] w) := by
  induction k generalizing w with
  | zero => exact ⟨w.amaps, w.lastAMapIb, rfl, rfl, h⟩
  | succ k ih =>
    obtain ⟨amaps, heq, hsize, hmaps⟩ := addAMap_maps h
    rw [Function.iterate_succ_apply]
    obtain ⟨amaps', last', heq', hsize', hmaps'⟩ := ih hmaps
    refine ⟨amaps', last', by rw [heq', heq], ?_, hmaps'⟩
    rw [hsize', heq]
    show amaps.length + k = _
    omega

/-- The span of the maps a range lies in. -/
def spanOf (ib : Nat) : Nat := (ib - kFirstAMapPos) / kAMapSpan

/-- A range that meets no reserved page lies in one span: an AMap page starts the next one. -/
theorem inSpan_of_unreserved {ib cb : Nat} (h64 : kBlockAlign ∣ ib) (hcb : kBlockAlign ∣ cb)
    (hpos : 0 < cb) (hib : kFirstDataPos ≤ ib) (hfree : Unreserved ib cb) :
    InSpan (spanOf ib) ib cb := by
  have hnext := hfree _ (isReservedPage_amapPage (spanOf ib + 1))
  simp only [File.Apart, amapPage, spanOf, kFirstAMapPos, kAMapSpan, kFirstDataPos,
    kPageSize] at *
  refine ⟨h64, hcb, ?_, ?_, hpos⟩ <;>
    simp only [amapPage, kFirstAMapPos, kAMapSpan] <;> omega

/-- Marking what was handed out keeps the maps exact. -/
theorem markAllocated_maps {taken : List (Nat × Nat)} {w : NdbWriter} {ib cb : Nat}
    (h : Maps taken w) (h64 : kBlockAlign ∣ ib) (hcb : kBlockAlign ∣ cb) (hpos : 0 < cb)
    (hib : kFirstDataPos ≤ ib) (hfree : Unreserved ib cb) :
    ∃ amaps last, w.markAllocated ib cb = { w with amaps, lastAMapIb := last } ∧
      amaps.length = max w.amaps.length (spanOf ib + 1) ∧
      Maps (taken ++ [(ib, cb)]) (w.markAllocated ib cb) := by
  have hge : ¬ ib < kFirstAMapPos := by
    unfold kFirstDataPos at hib
    unfold kFirstAMapPos
    omega
  have hspan := inSpan_of_unreserved h64 hcb hpos hib hfree
  unfold NdbWriter.markAllocated NdbWriter.ensureAMapCount
  rw [if_neg hge]
  change ∃ amaps last, (NdbWriter.addAMap^[spanOf ib + 1 - w.amaps.length] w).markInside ib cb = _ ∧
    _ ∧ Maps _ ((NdbWriter.addAMap^[spanOf ib + 1 - w.amaps.length] w).markInside ib cb)
  obtain ⟨amaps₁, last, heq₁, hsize₁, hmaps₁⟩ :=
    iterate_addAMap_maps h (spanOf ib + 1 - w.amaps.length)
  rw [heq₁] at hmaps₁ ⊢
  obtain ⟨hsizes, hlast, hspilled, hinside, hbits⟩ := hmaps₁
  have hmap : spanOf ib < amaps₁.length := by omega
  obtain ⟨amaps, heq, hsize, hsizes', hset⟩ :=
    markInside_spec (w := { w with amaps := amaps₁, lastAMapIb := last }) hsizes hmap hspan
  rw [heq]
  change amaps.length = amaps₁.length at hsize
  refine ⟨amaps, last, rfl, by omega, hsizes', ?_, hspilled, ?_, ?_⟩
  · show last = amapPage (amaps.length - 1)
    rw [hsize]
    exact hlast
  · intro r hr
    show r.1 + r.2 ≤ amapPage amaps.length
    rw [hsize]
    rcases List.mem_append.1 hr with hr | hr
    · exact hinside r hr
    · rw [List.mem_singleton.1 hr]
      have hstop := hspan.stop
      unfold amapPage at *
      have hmul := Nat.mul_le_mul_right kAMapSpan (show spanOf ib + 1 ≤ amaps₁.length from hmap)
      omega
  · intro s hs
    show marked amaps s = true ↔ _
    have hs' : s < amaps₁.length * kMapSlots := by rwa [← hsize]
    rw [hset]
    show marked amaps₁ s = true ∨ _ ↔ _
    rw [hbits s hs', or_assoc]
    simp only [List.mem_append, List.mem_singleton, or_and_right, exists_or, exists_eq_left]

/-! ## Allocation -/

/-- What the allocator relies on, and keeps. -/
structure Cursor (w : NdbWriter) : Prop where
  first : kFirstDataPos ≤ w.cursor
  aligned : kBlockAlign ∣ w.cursor

/-- What `allocate` hands out, `cb` octets from `ib` on, and the state it leaves. -/
structure Allocated (taken : List (Nat × Nat)) (w : NdbWriter) (ib cb : Nat) (w' : NdbWriter) :
    Prop where
  state : ∃ amaps last, w' = { w with cursor := ib + cb, amaps, lastAMapIb := last }
  above : w.cursor ≤ ib
  near : ib < w.cursor + cb + 1024
  aligned : kBlockAlign ∣ ib
  free : Unreserved ib cb
  maps : Maps (taken ++ [(ib, cb)]) w'
  spans : w'.amaps.length = max w.amaps.length (spanOf ib + 1)

theorem allocate_spec {taken : List (Nat × Nat)} {w w' : NdbWriter} {cb ib : Nat}
    (h : allocate cb w = .ok ib w') (hm : Maps taken w) (hc : Cursor w)
    (hcb : kBlockAlign ∣ cb) (hpos : 0 < cb) (hle : cb ≤ 8192) :
    Allocated taken w ib cb w' ∧ (kPageSize ∣ w.cursor → kPageSize ∣ ib) := by
  have halign : alignUp cb kBlockAlign = cb := by
    unfold alignUp kBlockAlign at *
    omega
  simp only [allocate, bind_eq_ok, get_eq_ok, set_eq_ok, pure_eq_ok, halign] at h
  obtain ⟨_, _, ⟨rfl, rfl⟩, _, _, rfl, rfl, rfl⟩ := h
  obtain ⟨hge, hmoved, hfree, hnear⟩ := place_spec hc.first hle
  have h64 : kBlockAlign ∣ place w.cursor cb := by
    rcases hmoved with heq | hdvd
    · rw [heq]
      exact hc.aligned
    · exact Nat.dvd_trans (by decide) hdvd
  have hm' : Maps taken { w with cursor := place w.cursor cb + cb } :=
    ⟨hm.sizes, hm.last, hm.spilled, hm.inside, hm.bits⟩
  obtain ⟨amaps, last, heq, hsize, hmaps⟩ := markAllocated_maps hm' h64 hcb hpos
    (hc.first.trans hge) hfree
  refine ⟨⟨⟨amaps, last, heq⟩, hge, hnear, h64, hfree, hmaps, ?_⟩, ?_⟩
  · rw [heq]
    exact hsize
  · intro hpage
    rcases hmoved with hsame | hdvd
    · rw [hsame]
      exact hpage
    · exact hdvd

theorem Allocated.cursor {taken : List (Nat × Nat)} {w w' : NdbWriter} {ib cb : Nat}
    (h : Allocated taken w ib cb w') (hc : Cursor w) (hcb : kBlockAlign ∣ cb) : Cursor w' := by
  obtain ⟨amaps, last, rfl⟩ := h.state
  exact ⟨hc.first.trans (h.above.trans (Nat.le_add_right _ _)), Nat.dvd_add h.aligned hcb⟩

theorem allocatePage_spec {taken : List (Nat × Nat)} {w w' : NdbWriter} {ib : Nat}
    (h : allocatePage w = .ok ib w') (hm : Maps taken w) (hc : Cursor w) :
    Allocated taken { w with cursor := alignUp w.cursor kPageSize } ib kPageSize w' ∧
      kPageSize ∣ ib := by
  simp only [allocatePage, bind_eq_ok, modify_eq_ok] at h
  obtain ⟨_, _, rfl, h⟩ := h
  have hm' : Maps taken { w with cursor := alignUp w.cursor kPageSize } :=
    ⟨hm.sizes, hm.last, hm.spilled, hm.inside, hm.bits⟩
  have hc' : Cursor { w with cursor := alignUp w.cursor kPageSize } :=
    ⟨hc.first.trans (le_alignUp (by decide)),
      Nat.dvd_trans (by decide : kBlockAlign ∣ kPageSize) (dvd_alignUp _ _)⟩
  obtain ⟨hall, hpage⟩ := allocate_spec h hm' hc' (by decide) (by decide) (by decide)
  exact ⟨hall, hpage (dvd_alignUp _ _)⟩

end Pst
end Imap2Pst
