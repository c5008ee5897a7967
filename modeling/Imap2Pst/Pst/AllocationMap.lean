import Imap2Pst.Pst.Session

/-!
# Pst.AllocationMap

The allocation maps of a finished file, read from its octets: a slot's bit is set exactly when the
slot is in use, every map page is written, and the totals in ROOT are those of the maps
(`maps_exact`).

* `amapBit` — the bit of a slot, in the file.
* `freeSlots_eq`, `amapFree_eq` — the totals count the clear bits.
-/

namespace Imap2Pst
namespace Pst

open CxxStd

/-! ## Counting clear bits -/

theorem countP_range_add (p : Nat → Bool) (m n : Nat) : (List.range (m + n)).countP p =
    (List.range m).countP p + (List.range n).countP fun t => p (m + t) := by
  rw [List.range_add, List.countP_append, List.countP_map]
  rfl

theorem bitSet_cons (byte : Byte) (bits : Bytes) (t : Nat) :
    bitSet (byte :: bits) (8 + t) = bitSet bits t := by
  have hindex : (8 + t) / 8 = t / 8 + 1 := by omega
  have hmask : bitMask (8 + t) = bitMask t := by
    unfold bitMask
    rw [Nat.add_mod_left]
  unfold bitSet
  rw [hindex, hmask, List.getD_cons_succ]

theorem freeSlots_eq (bits : Bytes) :
    freeSlots bits = (List.range (8 * bits.length)).countP fun t => !bitSet bits t := by
  induction bits with
  | nil => rfl
  | cons byte bits ih =>
    have hfirst : ((List.range 8).countP fun t => !bitSet (byte :: bits) t) =
        (List.range 8).countP fun b => byte &&& bitMask b = 0 := by
      refine List.countP_congr fun t ht => ?_
      have ht := List.mem_range.1 ht
      simp [bitSet, Nat.div_eq_of_lt ht]
    rw [List.length_cons, Nat.mul_succ, Nat.add_comm, countP_range_add, hfirst]
    simp only [bitSet_cons]
    rw [← ih]
    rfl

theorem marked_cons (bits : Bytes) (amaps : List Bytes) (s : Nat) :
    marked (bits :: amaps) (kMapSlots + s) = marked amaps s := by
  have hindex : (kMapSlots + s) / kMapSlots = s / kMapSlots + 1 := by
    unfold kMapSlots
    omega
  unfold marked
  rw [hindex, List.getD_cons_succ, Nat.add_mod_left]

theorem amapFree_eq {amaps : List Bytes} (h : ∀ m ∈ amaps, m.length = 496) :
    (amaps.map fun bits => freeSlots bits * kBlockAlign).sum =
      kBlockAlign * (List.range (amaps.length * kMapSlots)).countP fun s => !marked amaps s := by
  induction amaps with
  | nil => rfl
  | cons bits amaps ih =>
    have hlen : 8 * bits.length = kMapSlots := by
      rw [h bits (by simp)]
      rfl
    have hfirst : ((List.range kMapSlots).countP fun s => !marked (bits :: amaps) s) =
        freeSlots bits := by
      rw [freeSlots_eq, hlen]
      refine List.countP_congr fun s hs => ?_
      have hs := List.mem_range.1 hs
      unfold marked
      rw [Nat.div_eq_of_lt hs, Nat.mod_eq_of_lt hs, List.getD_cons_zero]
    rw [List.map_cons, List.sum_cons, ih fun m hm => h m (by simp [hm]), List.length_cons,
      Nat.succ_mul, Nat.add_comm (amaps.length * kMapSlots), countP_range_add, hfirst, Nat.mul_add,
      Nat.mul_comm]
    simp only [marked_cons]

/-! ## The maps in the file -/

/-- The bit of slot `s`, in the allocation map page that covers it. -/
def amapBit (f : File) (s : Nat) : Bool :=
  bitSet (f.read (amapPage (s / kMapSlots)) 496) (s % kMapSlots)

/-- A page at a fixed position: it carries its own offset in place of a BID and no signature. -/
def IsFixedPage (f : File) (ptype : Byte) (ib : Nat) : Prop :=
  TrailerOk f (ib + 496) [ptype, ptype] 0 (f.read ib 496) ib

theorem fixedPage_of_read {f : File} {ptype : Byte} {ib : Nat} {body : Bytes}
    (hbody : body.length = 496) (hib : ib < 256 ^ 8)
    (h : f.read ib (pageImage body ptype 0 ib).length = pageImage body ptype 0 ib) :
    f.read ib 496 = body ∧ IsFixedPage f ptype ib := by
  have hread : f.read ib 496 = body := by
    have htake := congrArg (List.take 496) h
    rw [pageImage_length, hbody, File.read_append, List.take_left' (by simp)] at htake
    rw [htake, pageImage, ← hbody]
    simp
  have htrailer := trailerOk_of_read [ptype, ptype] body h rfl (by decide : 0 < 256 ^ 2) hib
  rw [hbody] at htrailer
  refine ⟨hread, ?_⟩
  unfold IsFixedPage
  rw [hread]
  exact htrailer

section

variable {std : StdSort} {w w₂ : NdbWriter} {nbt bbt : Bref}

/-- Each allocation map is in the file. -/
theorem Finished.amap (h : Finished std w w₂ nbt bbt) {k : Nat} (hk : k < w₂.amaps.length) :
    (closedFile w₂ nbt bbt).read (amapPage k) 496 = w₂.amaps[k] ∧
      IsFixedPage (closedFile w₂ nbt bbt) kPTypeAMap (amapPage k) := by
  have hsmall := h.small
  have hlt : amapPage k < amapPage w₂.amaps.length := by
    unfold amapPage kAMapSpan
    omega
  have hmem : amapWrite (w₂.amaps[k], k) ∈ closing w₂ nbt bbt :=
    List.mem_append_left _ (h.sound.mem_fixedPages.2 (.inr (.inl ⟨k, hk, rfl⟩)))
  exact fixedPage_of_read (h.sound.maps.sizes _ (List.getElem_mem hk)) (by omega)
    (read_closing nbt bbt h.sound hmem)

/-- Each page map is in the file. -/
theorem Finished.pmap (h : Finished std w w₂ nbt bbt) {k : Nat} (hk : 8 * k < w₂.amaps.length) :
    IsFixedPage (closedFile w₂ nbt bbt) kPTypePMap (pmapPage k) := by
  have hsmall := h.small
  have hlt : pmapPage k < amapPage w₂.amaps.length := by
    unfold amapPage pmapPage kAMapSpan kPMapSpan kFirstAMapPos kFirstPMapPos
    omega
  have hmem : pmapWrite k ∈ closing w₂ nbt bbt :=
    List.mem_append_left _ (h.sound.mem_fixedPages.2 (.inr (.inr ⟨k, hk, rfl⟩)))
  have hread := read_closing nbt bbt h.sound hmem
  unfold pmapWrite at hread
  exact (fixedPage_of_read List.length_replicate (by omega) hread).2

theorem Finished.amapBit_eq (h : Finished std w w₂ nbt bbt) {s : Nat}
    (hs : s < w₂.amaps.length * kMapSlots) :
    amapBit (closedFile w₂ nbt bbt) s = marked w₂.amaps s := by
  have hk : s / kMapSlots < w₂.amaps.length := Nat.div_lt_of_lt_mul (by rwa [Nat.mul_comm])
  unfold amapBit marked
  rw [(h.amap hk).1, List.getD_eq_getElem _ _ hk]

end

/-- The allocation maps tell the truth about the file. -/
structure MapsExact (w : NdbWriter) : Prop where
  bits : ∀ s, kFirstAMapPos + s * kBlockAlign < (readRoot w.file).ibFileEof →
    (amapBit w.file s = true ↔ (∃ x ∈ w.history, InRange s x.extent) ∨
      (∃ k, InRange s (0x4400 + k * 0x3E000, kPageSize)) ∨
      ∃ k, InRange s (0x4600 + k * 0x1F0000, kPageSize))
  size : w.file.size = (readRoot w.file).ibFileEof
  spans : ∃ n, 0 < n ∧ (readRoot w.file).ibFileEof = 0x4400 + n * 0x3E000 ∧
    (readRoot w.file).ibAMapLast = 0x4400 + (n - 1) * 0x3E000 ∧
    (∀ k < n, IsFixedPage w.file kPTypeAMap (0x4400 + k * 0x3E000)) ∧
    (∀ k, 8 * k < n → IsFixedPage w.file kPTypePMap (0x4600 + k * 0x1F0000)) ∧
    (∀ s < n * kMapSlots, kFirstAMapPos + (s + 1) * kBlockAlign ≤ w.file.size) ∧
    (readRoot w.file).cbAMapFree =
      64 * (List.range (n * kMapSlots)).countP fun s => !amapBit w.file s
  /-- No allocation ran past the end of its map. -/
  spilled : w.spilled = false

theorem maps_exact {std : StdSort} {ops : List NdbOp} {fate : Nat → Bool} {w : NdbWriter}
    {u : Unit} (h : session std ops { fate } = .ok u w) : MapsExact w := by
  obtain ⟨w₁, w₂, nbt, bbt, fate', _, hfin, rfl⟩ := session_spec h
  have hs := hfin.sound
  have hroot := hfin.readRoot
  have hbit (s) (h : s < w₂.amaps.length * kMapSlots) := hfin.amapBit_eq h
  change MapsExact { headerState w₂ with fate := fate', file := closedFile w₂ nbt bbt }
  refine ⟨?_, ?_, ⟨w₂.amaps.length, hs.some_map, ?_, ?_, fun k hk => (hfin.amap hk).2,
    fun k hk => hfin.pmap hk, ?_, ?_⟩, hs.maps.spilled⟩
  · intro s hlt
    show amapBit (closedFile w₂ nbt bbt) s = true ↔ (∃ x ∈ w₂.history, InRange s x.extent) ∨ _
    replace hlt : kFirstAMapPos + s * kBlockAlign < (readRoot (closedFile w₂ nbt bbt)).ibFileEof :=
      hlt
    rw [hroot] at hlt
    have hslot : s < w₂.amaps.length * kMapSlots := by
      simp only [amapPage, kFirstAMapPos, kBlockAlign, kAMapSpan, kMapSlots] at *
      omega
    rw [hbit s hslot, hs.maps.bits s hslot, or_comm]
    refine or_congr ?_ exists_or
    constructor
    · rintro ⟨r, hr, hin⟩
      obtain ⟨x, hx, rfl⟩ := List.mem_map.1 hr
      exact ⟨x, hx, (hs.made x hx).extent ▸ hin⟩
    · rintro ⟨x, hx, hin⟩
      exact ⟨x.range, List.mem_map_of_mem hx, (hs.made x hx).extent ▸ hin⟩
  · show (closedFile w₂ nbt bbt).size = (readRoot (closedFile w₂ nbt bbt)).ibFileEof
    rw [hroot, size_closedFile nbt bbt hs]
  · show (readRoot (closedFile w₂ nbt bbt)).ibFileEof = _
    rw [hroot]
    rfl
  · show (readRoot (closedFile w₂ nbt bbt)).ibAMapLast = _
    rw [hroot]
    rfl
  · intro s hlt
    show _ ≤ (closedFile w₂ nbt bbt).size
    rw [size_closedFile nbt bbt hs]
    simp only [amapPage, kFirstAMapPos, kBlockAlign, kAMapSpan, kMapSlots] at *
    omega
  · show (readRoot (closedFile w₂ nbt bbt)).cbAMapFree =
      64 * (List.range _).countP fun s => !amapBit (closedFile w₂ nbt bbt) s
    rw [hroot]
    refine (amapFree_eq hs.maps.sizes).trans (congrArg (64 * ·) ?_)
    refine List.countP_congr fun s hs => ?_
    rw [hbit s (List.mem_range.1 hs)]

theorem five_ops_maps_exact : ∃ w,
    session .insertion fiveOps { fate := fun _ => true } = .ok () w ∧ MapsExact w := by
  obtain ⟨w, h⟩ := fiveOps_returns
  exact ⟨w, h, maps_exact h⟩

end Pst
end Imap2Pst
