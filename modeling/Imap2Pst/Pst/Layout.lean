import Imap2Pst.Pst.Space

/-!
# Pst.Layout

The invariant of the file while it is written (`Sound`): every block and page lies on its own,
clear of the pages at fixed positions, where the allocation maps say, and still holds the octets
it was written with. `emitBlock` and `finishBTPage` are the only steps that add to it, and both
keep it (`emitBlock_spec`, `finishBTPage_spec`).

* `Verifies` — the trailer of a block or page, read back from the file.
* `writeData_sound`, `writeSubnodes_sound`, ... — every operation keeps the invariant.
-/

namespace Imap2Pst
namespace Pst

open CxxStd

/-! ## Octets of a block and of a page -/

@[simp] theorem blockImage_length {data : Bytes} {ib : Nat} {bid : Nat} :
    (blockImage data ib bid).length = alignUp (data.length + 16) kBlockAlign := by
  have hle := le_alignUp (v := data.length + 16) (a := kBlockAlign) (by decide)
  simp only [blockImage, List.length_append, List.length_replicate, le_length]
  omega

@[simp] theorem pageImage_length {body : Bytes} {ptype : Byte} {sig : Nat} {bid : Nat} :
    (pageImage body ptype sig bid).length = body.length + 16 := by
  simp only [pageImage, List.length_append, le_length, List.length_cons, List.length_nil]

theorem pageImage_size {body : Bytes} {ptype : Byte} {sig bid : Nat} (h : body.length = 496) :
    (pageImage body ptype sig bid).length = kPageSize := by
  rw [pageImage_length, h]
  rfl

theorem blockSize_spec {n : Nat} (hn : n ≤ kMaxBlockData) :
    kBlockAlign ∣ alignUp (n + 16) kBlockAlign ∧ n + 16 ≤ alignUp (n + 16) kBlockAlign ∧
      alignUp (n + 16) kBlockAlign ≤ 8192 := by
  unfold kMaxBlockData at hn
  unfold alignUp kBlockAlign
  omega

/-- The trailer at `t` carries the size or type `tag`, the signature, the checksum of `data` and
the BID. -/
structure TrailerOk (f : File) (t : Nat) (tag : Bytes) (sig : Nat) (data : Bytes) (bid : Nat) :
    Prop where
  tag : f.read t 2 = tag
  sig : fromLe (f.read (t + 2) 2) = sig
  crc : fromLe (f.read (t + 4) 4) = computeCrc data
  bid : fromLe (f.read (t + 8) 8) = bid

/-- The block or page still verifies in the file. -/
def Verifies (f : File) (x : Written) : Prop :=
  match x.kind with
  | .inl cb => TrailerOk f (x.ib + alignUp (cb + 16) kBlockAlign - 16) (le 2 cb)
      (computeSig x.ib x.bid) (f.read x.ib cb) x.bid
  | .inr ptype => TrailerOk f (x.ib + 496) [ptype, ptype] (computeSig x.ib x.bid)
      (f.read x.ib 496) x.bid

/-- A file that ends a range with a trailer. -/
theorem trailerOk_of_read {f : File} {ib n : Nat} {front : Bytes} (tag data : Bytes)
    {sig bid : Nat}
    (hread : f.read ib n = front ++ tag ++ le 2 sig ++ le 4 (computeCrc data) ++ le 8 bid)
    (htag : tag.length = 2) (hsig : sig < 256 ^ 2)
    (hbid : bid < 256 ^ 8) : TrailerOk f (ib + front.length) tag sig data bid := by
  refine ⟨?_, ?_, ?_, ?_⟩
  · have h := File.read_middle (a := front) (b := tag)
      (c := le 2 sig ++ le 4 (computeCrc data) ++ le 8 bid) (by rw [hread]; simp)
    rwa [htag] at h
  · have h := File.read_middle (a := front ++ tag) (b := le 2 sig)
      (c := le 4 (computeCrc data) ++ le 8 bid) (by rw [hread]; simp)
    rw [List.length_append, htag, le_length, ← Nat.add_assoc] at h
    rw [h, fromLe_le_of_lt hsig]
  · have h := File.read_middle (a := front ++ tag ++ le 2 sig) (b := le 4 (computeCrc data))
      (c := le 8 bid) hread
    simp only [List.length_append, htag, le_length, ← Nat.add_assoc] at h
    rw [h, fromLe_le_of_lt (computeCrc_lt data)]
  · have h := File.read_middle (a := front ++ tag ++ le 2 sig ++ le 4 (computeCrc data))
      (b := le 8 bid) (c := []) (by rw [hread]; simp)
    simp only [List.length_append, htag, le_length, ← Nat.add_assoc] at h
    rw [h, fromLe_le_of_lt hbid]

/-- The octets are those the writer puts in a block, or in a page, of that BID at that offset. -/
def WellMade (x : Written) : Prop :=
  match x.kind with
  | .inl cb => ∃ data : Bytes, data.length = cb ∧ cb ≤ kMaxBlockData ∧
      x.image = blockImage data x.ib x.bid
  | .inr ptype => ∃ body : Bytes, body.length = 496 ∧
      x.image = pageImage body ptype (computeSig x.ib x.bid) x.bid

theorem verifies_of_read {f : File} {x : Written} (hmade : WellMade x) (hbid : x.bid < 256 ^ 8)
    (hread : f.read x.ib x.image.length = x.image) : Verifies f x := by
  obtain ⟨bid, ib, image, kind⟩ := x
  cases kind with
  | inl cb =>
    obtain ⟨data, rfl, hcb, himage⟩ := hmade
    simp only at himage hread hbid
    subst himage
    obtain ⟨_, hle, _⟩ := blockSize_spec hcb
    have hfront : (data ++ List.replicate
        (alignUp (data.length + 16) kBlockAlign - 16 - data.length) (0 : Byte)).length =
        alignUp (data.length + 16) kBlockAlign - 16 := by
      simp only [List.length_append, List.length_replicate]
      omega
    have htrailer := trailerOk_of_read (le 2 data.length) data hread (le_length _ _)
      (computeSig_lt ib bid) hbid
    have hdata : f.read ib data.length = data := by
      have h := congrArg (List.take data.length) hread
      rw [show (blockImage data ib bid).length = data.length +
          (alignUp (data.length + 16) kBlockAlign - data.length) by rw [blockImage_length]; omega,
        File.read_append, List.take_left' (by simp)] at h
      rw [h, blockImage]
      simp
    rw [hfront, ← Nat.add_sub_assoc (by omega)] at htrailer
    simpa only [Verifies, hdata] using htrailer
  | inr ptype =>
    obtain ⟨body, hbody, himage⟩ := hmade
    simp only at himage hread hbid
    subst himage
    have htrailer := trailerOk_of_read [ptype, ptype] body hread rfl (computeSig_lt ib bid)
      hbid
    have hdata : f.read ib 496 = body := by
      have h := congrArg (List.take 496) hread
      rw [pageImage_length, hbody, File.read_append, List.take_left' (by simp)] at h
      rw [h, pageImage, ← hbody]
      simp
    rw [hbody] at htrailer
    simpa only [Verifies, hdata] using htrailer

/-! ## The invariant -/

def Written.range (x : Written) : Nat × Nat := (x.ib, x.image.length)

/-- The block-tree entry of a written block. -/
def Written.entry (x : Written) : Option BbtEntry :=
  match x.kind with
  | .inl cb => some ⟨x.bid, x.ib, cb⟩
  | .inr _ => none

/-- Where a block or page may lie. -/
structure Placed (x : Written) : Prop where
  first : kFirstDataPos ≤ x.ib
  aligned : kBlockAlign ∣ x.ib
  page : x.kind.isRight → kPageSize ∣ x.ib
  whole : kBlockAlign ∣ x.image.length
  some : 0 < x.image.length
  free : Unreserved x.ib x.image.length

/-- What holds of the blocks and pages written so far, whatever else is written elsewhere. -/
structure Laid (w : NdbWriter) : Prop where
  cursor : Cursor w
  maps : Maps (w.history.map Written.range) w
  mapped : w.cursor ≤ amapPage w.amaps.length
  placed : ∀ x ∈ w.history, Placed x ∧ x.ib + x.image.length ≤ w.cursor
  apart : w.history.Pairwise fun x y => File.Apart x.range y.range
  made : ∀ x ∈ w.history, WellMade x
  kept : ∀ x ∈ w.history, w.file.read x.ib x.image.length = x.image
  blocks : (w.history.filterMap Written.entry).Perm w.bbt
  ascending : w.history.Pairwise fun x y => x.bid / 4 < y.bid / 4
  fresh : ∀ x ∈ w.history, x.bid / 4 < w.nextBidIndex
  /-- No counter of BIDs wraps around. -/
  bids : w.nextBidIndex * kBlockAlign ≤ w.cursor

/-- The invariant between two operations. -/
structure Sound (w : NdbWriter) : Prop extends Laid w where
  size : w.file.size = w.cursor
  /-- No offset wraps around. -/
  small : w.cursor < 2 ^ 63

theorem put_eq_ok {what : String} {ib : Nat} {data : Bytes} {w w' : NdbWriter} {u : Unit} :
    put what ib data w = .ok u w' ↔ (w.good ∧ w.fate 0 ∧ ib + data.length < 2 ^ 63) ∧
      { w with fate := fun k => w.fate (k + 1), file := w.file.write ib data } = w' := by
  unfold put
  rw [bind_eq_ok]
  simp only [get_eq_ok]
  constructor
  · rintro ⟨_, _, ⟨rfl, rfl⟩, h⟩
    rcases ite_eq_ok.1 h with ⟨hok, h⟩ | ⟨_, h⟩
    · exact ⟨by simpa using hok, set_eq_ok.1 h⟩
    · obtain ⟨_, _, _, h⟩ := bind_eq_ok.1 h
      cases h
  · rintro ⟨hok, h⟩
    exact ⟨w, w, ⟨rfl, rfl⟩, ite_eq_ok.2 (.inl ⟨by simpa using hok, set_eq_ok.2 h⟩)⟩

theorem takeBid_eq_ok {internal : Bool} {w w' : NdbWriter} {bid : Nat} :
    takeBid internal w = .ok bid w' ↔ makeBid w.nextBidIndex internal = bid ∧
      { w with nextBidIndex := w.nextBidIndex + 1 } = w' := by
  unfold takeBid
  simp only [bind_eq_ok, get_eq_ok, set_eq_ok, pure_eq_ok]
  constructor
  · rintro ⟨_, _, ⟨rfl, rfl⟩, _, _, rfl, rfl, rfl⟩
    exact ⟨rfl, rfl⟩
  · rintro ⟨rfl, rfl⟩
    exact ⟨w, w, ⟨rfl, rfl⟩, ⟨⟩, _, rfl, rfl, rfl⟩

theorem makeBid_of_lt {index : Nat} (h : index < 2 ^ 62) (internal : Bool) :
    makeBid index internal = 4 * index + if internal then 2 else 0 := by
  have hmod : index <<< 2 % 2 ^ 64 = index * 2 ^ 2 := by
    rw [Nat.shiftLeft_eq]
    exact Nat.mod_eq_of_lt (by omega)
  unfold makeBid
  rw [hmod, ← Nat.mul_comm, ← Nat.two_pow_add_eq_or_of_lt (by split <;> decide)]

theorem Sound.index_lt {w : NdbWriter} (h : Sound w) : w.nextBidIndex < 2 ^ 62 := by
  have hbids := h.bids
  have hsmall := h.small
  unfold kBlockAlign at hbids
  omega

theorem apart_of_le {a b : Nat × Nat} (h : a.1 + a.2 ≤ b.1) : File.Apart a b := .inl h

/-- One more block or page, in room that was handed out for it. -/
theorem Sound.append {w w₁ : NdbWriter} {c ib cb : Nat} (x : Written) (internal : Bool)
    (fate : Nat → Bool) (hs : Sound w) (hc : w.cursor ≤ c)
    (hall : Allocated (w.history.map Written.range) { w with cursor := c } ib cb w₁)
    (hib : x.ib = ib) (hcb : x.image.length = cb)
    (hbid : x.bid = makeBid w.nextBidIndex internal) (hmade : WellMade x)
    (hpage : x.kind.isRight → kPageSize ∣ ib) (hwhole : kBlockAlign ∣ cb) (hsome : 0 < cb)
    (hsmall : ib + cb < 2 ^ 63) :
    Sound
      { w₁ with
        nextBidIndex := w.nextBidIndex + 1
        fate
        file := w.file.write ib x.image
        bbt := w.bbt ++ x.entry.toList
        history := w.history ++ [x] } := by
  obtain ⟨⟨amaps, last, rfl⟩, habove, _, halign, hfree, hmaps, _⟩ := hall
  subst hib hcb
  replace habove : w.cursor ≤ x.ib := hc.trans habove
  have hfirst := hs.cursor.first
  have hend : x.ib + x.image.length ≤ amapPage amaps.length :=
    hmaps.inside (x.ib, x.image.length) (by simp)
  have hbid' : x.bid / 4 = w.nextBidIndex := by
    rw [hbid, makeBid_of_lt hs.index_lt]
    split <;> omega
  have hbelow (y : Written) (hy : y ∈ w.history) : y.ib + y.image.length ≤ x.ib :=
    (hs.placed y hy).2.trans habove
  refine ⟨⟨⟨hfirst.trans (by show w.cursor ≤ x.ib + x.image.length; omega),
    Nat.dvd_add halign hwhole⟩, ?_, hend, ?_, ?_, ?_, ?_, ?_, ?_, ?_, ?_⟩, ?_, hsmall⟩
  · rw [List.map_append]
    exact ⟨hmaps.sizes, hmaps.last, hmaps.spilled, hmaps.inside, hmaps.bits⟩
  · intro y hy
    rcases List.mem_append.1 hy with hy | hy
    · exact ⟨(hs.placed y hy).1, (hbelow y hy).trans (Nat.le_add_right _ _)⟩
    · rw [List.mem_singleton.1 hy]
      exact ⟨⟨hfirst.trans habove, halign, hpage, hwhole, hsome, hfree⟩, le_rfl⟩
  · refine List.pairwise_append.2 ⟨hs.apart, by simp, fun y hy z hz => ?_⟩
    rw [List.mem_singleton.1 hz]
    exact apart_of_le (hbelow y hy)
  · intro y hy
    rcases List.mem_append.1 hy with hy | hy
    · exact hs.made y hy
    · rw [List.mem_singleton.1 hy]
      exact hmade
  · intro y hy
    rcases List.mem_append.1 hy with hy | hy
    · show (w.file.write x.ib x.image).read y.ib y.image.length = y.image
      rw [File.read_write_of_disjoint (.inl (hbelow y hy))]
      exact hs.kept y hy
    · rw [List.mem_singleton.1 hy]
      exact File.read_write_self
  · rw [List.filterMap_append]
    refine hs.blocks.append (List.Perm.of_eq ?_)
    cases hentry : x.entry <;> simp [hentry]
  · refine List.pairwise_append.2 ⟨hs.ascending, by simp, fun y hy z hz => ?_⟩
    rw [List.mem_singleton.1 hz, hbid']
    exact hs.fresh y hy
  · intro y hy
    rcases List.mem_append.1 hy with hy | hy
    · exact (hs.fresh y hy).trans (Nat.lt_succ_self _)
    · rw [List.mem_singleton.1 hy, hbid']
      exact Nat.lt_succ_self _
  · have hbids := hs.bids
    show (w.nextBidIndex + 1) * kBlockAlign ≤ x.ib + x.image.length
    have hle : kBlockAlign ≤ x.image.length := Nat.le_of_dvd hsome hwhole
    rw [Nat.succ_mul]
    omega
  · show max w.file.size (x.ib + x.image.length) = x.ib + x.image.length
    rw [hs.size]
    omega

/-- What `emitBlock` does. -/
theorem emitBlock_spec {data : Bytes} {internal : Bool} {w w' : NdbWriter} {bid : Nat}
    (h : emitBlock data internal w = .ok bid w') (hs : Sound w) :
    Sound w' ∧ data.length ≤ kMaxBlockData ∧ bid = makeBid w.nextBidIndex internal ∧
      ∃ ib, w'.history = w.history ++ [⟨bid, ib, blockImage data ib bid, .inl data.length⟩] ∧
        w'.bbt = w.bbt ++ [⟨bid, ib, data.length⟩] ∧ w'.nbt = w.nbt ∧
        w'.finished = w.finished := by
  unfold emitBlock at h
  rcases ite_eq_ok.1 h with ⟨_, h⟩ | ⟨hle, h⟩
  · obtain ⟨_, _, h, _⟩ := bind_eq_ok.1 h
    cases h
  have hlen : data.length ≤ kMaxBlockData := not_lt.1 hle
  obtain ⟨hdvd, hroom, hsize⟩ := blockSize_spec hlen
  simp only [bind_eq_ok, takeBid_eq_ok, writeAt, put_eq_ok, modify_eq_ok, pure_eq_ok] at h
  obtain ⟨ib, w₁, hall, _, _, ⟨rfl, rfl⟩, _, _, ⟨⟨_, _, hsmall⟩, rfl⟩, _, _, rfl, rfl, rfl⟩ := h
  obtain ⟨hall, _⟩ := allocate_spec hall hs.maps hs.cursor hdvd (by omega) hsize
  obtain ⟨⟨amaps, last, rfl⟩, -⟩ := id hall
  dsimp only at hsmall ⊢
  let bid := makeBid w.nextBidIndex internal
  let x : Written := ⟨bid, ib, blockImage data ib bid, .inl data.length⟩
  have himage : x.image.length = alignUp (data.length + 16) kBlockAlign := blockImage_length
  have hsound := hs.append x internal (fun k => w.fate (k + 1)) le_rfl
    hall rfl himage rfl ⟨data, rfl, hlen, rfl⟩ (by simp [x]) hdvd (by omega) (himage ▸ hsmall)
  exact ⟨hsound, hlen, rfl, ib, rfl, rfl, rfl, rfl⟩

/-- What `finishBTPage` does. -/
theorem finishBTPage_spec {body : Bytes} {ptype : Byte} {w w' : NdbWriter} {r : Bref}
    (h : finishBTPage body ptype w = .ok r w') (hbody : body.length = 496) (hs : Sound w) :
    Sound w' ∧ r.bid = makeBid w.nextBidIndex false ∧
      w'.history = w.history ++
        [⟨r.bid, r.ib, pageImage body ptype (computeSig r.ib r.bid) r.bid, .inr ptype⟩] ∧
      w'.bbt = w.bbt ∧ w'.nbt = w.nbt ∧ w'.finished = w.finished := by
  unfold finishBTPage at h
  simp only [bind_eq_ok, takeBid_eq_ok, writeAt, put_eq_ok, modify_eq_ok, pure_eq_ok] at h
  obtain ⟨ib, w₁, hall, _, _, ⟨rfl, rfl⟩, _, _, ⟨⟨_, _, hsmall⟩, rfl⟩, _, _, rfl, rfl, rfl⟩ := h
  obtain ⟨hall, hpage⟩ := allocatePage_spec hall hs.maps hs.cursor
  obtain ⟨⟨amaps, last, rfl⟩, -⟩ := id hall
  dsimp only at hsmall ⊢
  let bid := makeBid w.nextBidIndex false
  let x : Written := ⟨bid, ib, pageImage body ptype (computeSig ib bid) bid, .inr ptype⟩
  have himage : x.image.length = kPageSize := pageImage_size hbody
  have hsound := hs.append x false (fun k => w.fate (k + 1))
    (le_alignUp (by decide)) hall rfl himage rfl ⟨body, hbody, rfl⟩ (fun _ => hpage) (by decide)
    (by decide) (himage ▸ hsmall)
  have hentry : x.entry.toList = [] := rfl
  rw [hentry, List.append_nil] at hsound
  exact ⟨hsound, rfl, rfl, rfl, rfl, rfl⟩

/-! ## Every operation keeps the invariant -/

/-- Blocks and pages were added and nothing else changed that a later operation reads. -/
structure Grows (w w' : NdbWriter) : Prop where
  sound : Sound w'
  history : w.history <+: w'.history
  nbt : w'.nbt = w.nbt
  finished : w'.finished = w.finished

def SoundlyGrows (w w' : NdbWriter) : Prop := Sound w → Grows w w'

theorem Grows.refl {w : NdbWriter} (hs : Sound w) : Grows w w := ⟨hs, List.prefix_rfl, rfl, rfl⟩

theorem Grows.trans {w w' w'' : NdbWriter} (h : Grows w w') (h' : Grows w' w'') : Grows w w'' :=
  ⟨h'.sound, h.history.trans h'.history, h'.nbt.trans h.nbt, h'.finished.trans h.finished⟩

instance : IsPreorder NdbWriter SoundlyGrows where
  refl _ hs := Grows.refl hs
  trans _ _ _ h h' hs := (h hs).trans (h' (h hs).sound)

theorem emitBlock_grows (data : Bytes) (internal : Bool) :
    Moves SoundlyGrows (emitBlock data internal) := by
  intro w bid w' h hs
  obtain ⟨hs', _, _, ib, hhist, _, hnbt, hfin⟩ := emitBlock_spec h hs
  exact ⟨hs', hhist ▸ List.prefix_append _ _, hnbt, hfin⟩

section

variable {R : NdbWriter → NdbWriter → Prop} [IsPreorder NdbWriter R]

/-- An operation that writes blocks moves the state as its blocks do. -/
theorem assembleDataTree_moves (hblock : ∀ data internal, Moves R (emitBlock data internal))
    (leaves : List Nat) (totalBytes : Nat) : Moves R (assembleDataTree leaves totalBytes) := by
  unfold assembleDataTree
  split
  · exact hblock _ _
  · exact moves_pure _
  · refine moves_ite (fun _ => moves_throw_bind _ _) fun _ => ?_
    refine moves_ite (fun _ => hblock _ _) fun _ => ?_
    refine moves_bind (moves_each fun _ _ => hblock _ _) fun xblocks => ?_
    exact moves_ite (fun _ => moves_throw_bind _ _) fun _ => hblock _ _

theorem writeData_moves (hblock : ∀ data internal, Moves R (emitBlock data internal))
    (data : Bytes) : Moves R (writeData data) := by
  unfold writeData
  split
  · exact hblock _ _
  · exact moves_bind (moves_each fun _ _ => hblock _ _)
      fun leaves => assembleDataTree_moves hblock leaves _

theorem writeSubnodes_moves (hblock : ∀ data internal, Moves R (emitBlock data internal))
    (std : StdSort) (entries : List SubnodeEntry) : Moves R (writeSubnodes std entries) := by
  unfold writeSubnodes
  refine moves_ite (fun _ => moves_pure 0) fun _ => ?_
  refine moves_ite (fun _ => hblock _ _) fun _ => ?_
  have hpiece (piece : List SubnodeEntry) : Moves R (do
      let bid ← emitSl piece
      pure ((piece.headD {}).nid, bid)) :=
    moves_bind (hblock _ _) fun bid => moves_pure _
  refine moves_bind (moves_each fun piece _ => hpiece piece) fun children => ?_
  exact moves_ite (fun _ => moves_throw_bind _ _) fun _ => hblock _ _

end

theorem assembleDataTree_grows (leaves : List Nat) (totalBytes : Nat) :
    Moves SoundlyGrows (assembleDataTree leaves totalBytes) :=
  assembleDataTree_moves emitBlock_grows leaves totalBytes

theorem writeData_grows (data : Bytes) : Moves SoundlyGrows (writeData data) :=
  writeData_moves emitBlock_grows data

/-- The tables in memory may be reordered, and nodes added. -/
theorem Sound.reindex {w : NdbWriter} (hs : Sound w) {bbt : List BbtEntry} (hbbt : bbt.Perm w.bbt)
    (nbt : List NbtEntry) (finished : Bool) : Sound { w with bbt, nbt, finished } := by
  obtain ⟨⟨hcursor, ⟨hsizes, hlast, hspilled, hinside, hbits⟩, hmapped, hplaced, hapart, hmade,
    hkept, hblocks, hasc, hfresh, hbids⟩, hsize, hsmall⟩ := hs
  exact ⟨⟨⟨hcursor.1, hcursor.2⟩, ⟨hsizes, hlast, hspilled, hinside, hbits⟩, hmapped, hplaced,
    hapart, hmade, hkept, hblocks.trans hbbt.symm, hasc, hfresh, hbids⟩, hsize, hsmall⟩

/-! ## B-tree pages -/

theorem length_flatten_of_forall {n : Nat} {l : List Bytes} (h : ∀ e ∈ l, e.length = n) :
    l.flatten.length = l.length * n := by
  induction l with
  | nil => simp
  | cons e l ih =>
    rw [List.flatten_cons, List.length_append, h e (by simp), ih fun e' he' => h e' (by simp [he']),
      List.length_cons, Nat.succ_mul, Nat.add_comm]

theorem pageBody_length {entries : List Bytes} {entrySize : Nat} (level : Nat)
    (hsize : ∀ e ∈ entries, e.length = entrySize)
    (hcount : entries.length ≤ entriesPerPage entrySize) :
    (pageBody entries entrySize level).length = 496 := by
  have hflat := length_flatten_of_forall hsize
  have hle : entries.length * entrySize ≤ kBTPageDataSize :=
    (Nat.mul_le_mul_right _ hcount).trans (Nat.div_mul_le_self _ _)
  unfold kBTPageDataSize at hle
  simp only [pageBody, List.length_append, List.length_replicate, List.length_cons,
    List.length_nil, hflat, kBTPageDataSize]
  omega

theorem branchBytes_length (e : BranchEntry) : (branchBytes e).length = kSizeBTEntry := by
  simp only [branchBytes, List.length_append, le_length]
  rfl

theorem nbtBytes_length (e : NbtEntry) : (nbtBytes e).length = kSizeNBTEntry := by
  simp only [nbtBytes, List.length_append, le_length]
  rfl

theorem bbtBytes_length (e : BbtEntry) : (bbtBytes e).length = kSizeBBTEntry := by
  simp only [bbtBytes, List.length_append, le_length]
  rfl

end Pst
end Imap2Pst
