import Imap2Pst.Pst.MessageRoundTrip
import Imap2Pst.Pst.FullHeap

/-!
# Pst.Failures

Where a call that throws leaves the file. A block is refused because it is too long, and then
nothing has changed, or by the stream, and then no later block is written either.

* `Endures`, `Falters` — where a call that returns, or throws, takes the file.
* `buildMessage_falters` — the same of a message, with the names.
-/

namespace Imap2Pst
namespace Pst

open CxxStd

/-- The file of a call that returned. -/
structure Endures (w w' : NdbWriter) : Prop where
  good : w'.good = w.good
  grows : SoundlyGrows w w'

/-- The file of a call that threw: as long as the stream is good the file is sound. -/
structure Falters (w w' : NdbWriter) : Prop where
  bad : w.good = false → w'.good = false
  grows : w'.good = true → SoundlyGrows w w'

instance : Escapes Endures Falters where
  refl _ := ⟨rfl, Grows.refl⟩
  trans _ _ _ h h' :=
    ⟨h'.good.trans h.good, fun hs => (h.grows hs).trans (h'.grows (h.grows hs).sound)⟩
  stop _ := ⟨id, fun _ => Grows.refl⟩
  after h h' := ⟨fun hbad => h'.bad (h.good.trans hbad), fun hgood hs =>
    (h.grows hs).trans (h'.grows hgood (h.grows hs).sound)⟩

theorem put_throws {what : String} {ib : Nat} {data : Bytes} {w w' : NdbWriter} {e : PstError}
    (h : put what ib data w = .error e w') : w'.good = false := by
  unfold put at h
  rcases bind_eq_error.1 h with h | ⟨_, w₁, _, h⟩
  · cases h
  rcases ite_eq_error.1 h with ⟨_, h⟩ | ⟨_, h⟩
  · cases h
  · cases h
    rfl

theorem emitBlock_good {data : Bytes} {internal : Bool} {bid : Nat} {w w' : NdbWriter}
    (h : emitBlock data internal w = .ok bid w') : w.good = true ∧ w'.good = w.good := by
  unfold emitBlock at h
  rcases ite_eq_ok.1 h with ⟨_, h⟩ | ⟨_, h⟩
  · obtain ⟨_, _, h, _⟩ := bind_eq_ok.1 h
    cases h
  simp only [bind_eq_ok, takeBid_eq_ok, writeAt, put_eq_ok, modify_eq_ok, pure_eq_ok] at h
  obtain ⟨ib, w₁, hall, _, _, ⟨_, rfl⟩, _, _, ⟨⟨hgood, _⟩, rfl⟩, _, _, rfl, _, rfl⟩ := h
  have hall := allocate_good hall
  exact ⟨hall.symm.trans hgood, hall⟩

theorem emitBlock_throws {data : Bytes} {internal : Bool} {e : PstError} {w w' : NdbWriter}
    (h : emitBlock data internal w = .error e w') : w' = w ∨ w'.good = false := by
  unfold emitBlock at h
  rcases ite_eq_error.1 h with ⟨_, h⟩ | ⟨_, h⟩
  · rcases bind_eq_error.1 h with h | ⟨_, _, h, _⟩
    · cases h
      exact .inl rfl
    · cases h
  rcases bind_eq_error.1 h with h | ⟨ib, w₁, _, h⟩
  · cases h
  rcases bind_eq_error.1 h with h | ⟨bid, w₂, _, h⟩
  · cases h
  rcases bind_eq_error.1 h with h | ⟨_, w₃, _, h⟩
  · exact .inr (put_throws h)
  · cases h

theorem emitBlock_falters (data : Bytes) (internal : Bool) :
    Drives Endures Falters (emitBlock data internal) := by
  refine fun w => ⟨fun bid w' h => ⟨(emitBlock_good h).2, emitBlock_grows data internal w bid w' h⟩,
    fun e w' h => ?_⟩
  rcases emitBlock_throws h with rfl | hbad
  · exact Escapes.stop Endures w'
  · refine ⟨fun _ => hbad, fun hgood => ?_⟩
    rw [hbad] at hgood
    cases hgood

/-! ## Messages -/

/-- What a call on what messages are built from returned to. -/
structure StoreEndures (s s' : StoreWriter) : Prop where
  good : s'.ndb.good = s.ndb.good
  stands : StandsFirm s s'

/-- What such a call threw to. -/
structure StoreFalters (s s' : StoreWriter) : Prop where
  bad : s.ndb.good = false → s'.ndb.good = false
  stands : s'.ndb.good = true → StandsFirm s s'

instance : Escapes StoreEndures StoreFalters where
  refl s := ⟨rfl, refl (r := StandsFirm) s⟩
  trans _ _ _ h h' := ⟨h'.good.trans h.good,
    Trans.trans (r := StandsFirm) (s := StandsFirm) (t := StandsFirm) h.stands h'.stands⟩
  stop s := ⟨id, fun _ => refl (r := StandsFirm) s⟩
  after h h' := ⟨fun hbad => h'.bad (h.good.trans hbad), fun hgood =>
    Trans.trans (r := StandsFirm) (s := StandsFirm) (t := StandsFirm) h.stands (h'.stands hgood)⟩

theorem StoreEndures.of_file (s : StoreWriter) (w : NdbWriter) (h : Endures s.ndb w) :
    StoreEndures s { s with ndb := w } := ⟨h.good, StandsFirm.of_file s w h.grows⟩

theorem StoreFalters.of_file (s : StoreWriter) (w : NdbWriter) (h : Falters s.ndb w) :
    StoreFalters s { s with ndb := w } :=
  ⟨h.bad, fun hgood => StandsFirm.of_file s w (h.grows hgood)⟩

theorem takeProperties_falters (key : RecordKey) (nid : Nat) (embedded : Bool) (m : Message) :
    Drives StoreEndures StoreFalters (takeProperties key nid embedded m) := by
  refine fun s => ⟨fun pc s' h => ?_, fun e s' h => ?_⟩
  · obtain ⟨_, _, -, -, hndb, -⟩ := takeProperties_spec h
    exact ⟨by rw [hndb], (takeProperties_drives key nid embedded m s).returns pc s' h⟩
  · have htime {t : StoreWriter} : ¬∃ t', timeOr m.delivered t = .error e t' := by
      rintro ⟨t', ht⟩
      unfold timeOr at ht
      split at ht <;> cases ht
    unfold takeProperties at h
    rcases bind_eq_error.1 h with h | ⟨_, s₁, _, h⟩
    · exact absurd ⟨_, h⟩ htime
    rcases bind_eq_error.1 h with h | ⟨_, s₂, _, h⟩
    · exact absurd ⟨_, h⟩ htime
    · cases h

theorem buildMessage_falters (std : StdSort) (key : RecordKey) (m : Message) (nid : Nat)
    (embedded : Bool) : Drives (Outer StoreEndures) (Outer StoreFalters)
      (buildMessage std key nid embedded m) :=
  buildMessage_drives emitBlock_falters StoreEndures.of_file StoreFalters.of_file std key
    (takeProperties_falters key) m nid embedded

end Pst
end Imap2Pst
