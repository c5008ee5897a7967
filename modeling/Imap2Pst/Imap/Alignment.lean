import Imap2Pst.Imap.Fetch

/-!
# Imap.Alignment

A batched fetch puts every body with the message it was sent for.

* `BodyLine` — the line a server sends for one body: `* n FETCH (UID u BODY[] {len}` and `len`
  octets.
* `fetchMessages_aligned` — whatever the octets are, and whichever UIDs the lines are for.
-/

namespace Imap2Pst
namespace Imap

open CxxStd

structure BodyLine where
  seq : Nat
  uid : UInt32
  octets : Bytes
  deriving DecidableEq, Repr

def BodyLine.line (l : BodyLine) : FetchLine :=
  { seq := l.seq, items := [.uid l.uid, .body l.octets] }

def bodiesResponse (lines : List BodyLine) : Bytes := fetchResponse (lines.map BodyLine.line)

/-- The octets sent for a UID; the last line for it counts. -/
def sentFor (lines : List BodyLine) (uid : UInt32) : Option Bytes :=
  (lines.reverse.find? fun l => l.uid = uid).map (·.octets)

example : bodiesResponse [⟨3, 17, str "a))"⟩] =
    str "* 3 FETCH (UID 17 BODY[] \x7b3\x7d\r\na)))\r\n" := by decide

theorem parseFetchBodies_bodiesResponse {lines : List BodyLine}
    (hlen : (bodiesResponse lines).length < 2 ^ 63) :
    parseFetchBodies (bodiesResponse lines) = .ok (lines.map fun l => ⟨l.uid, l.octets⟩) := by
  have hwf : ∀ l ∈ lines.map BodyLine.line, l.WellFormed := by
    intro l hl item hitem
    obtain ⟨b, _, rfl⟩ := List.mem_map.1 hl
    simp only [BodyLine.line, List.mem_cons, List.not_mem_nil, or_false] at hitem
    rcases hitem with rfl | rfl <;> trivial
  rw [bodiesResponse, parseFetchBodies_respond hwf hlen, List.filterMap_map]
  congr 1
  exact List.filterMap_eq_map_iff_forall_eq_some.2 fun l _ => rfl

end Imap

namespace ImapClient

open Imap

/-- The map of a batch holds, under each UID, the last body that came for it. -/
theorem bodyMap_sentFor (lines : List BodyLine) (uid : UInt32) :
    bodyMap (lines.map fun l => ⟨l.uid, l.octets⟩) uid = sentFor lines uid := by
  induction lines using List.reverseRecOn with
  | nil => rfl
  | append_singleton lines l ih =>
    simp only [bodyMap, List.map_append, List.map_singleton, List.foldl_append, List.foldl_cons,
      List.foldl_nil] at ih ⊢
    rw [sentFor, List.reverse_append, List.reverse_singleton, List.singleton_append,
      List.find?_cons]
    by_cases h : l.uid = uid
    · rw [h, Function.update_self, decide_eq_true rfl]
      rfl
    · rw [Function.update_of_ne (Ne.symm h), decide_eq_false h]
      exact ih

/-- With distinct UIDs no entry takes the body of another. -/
theorem alignBodies_distinct {metas : List MessageMeta} (h : (metas.map (·.uid)).Nodup)
    (map : UInt32 → Option CxxStd.Bytes) :
    alignBodies map metas = metas.map fun m => rawOf m ((map m.uid).getD []) := by
  induction metas generalizing map with
  | nil => rfl
  | cons m ms ih =>
    rw [List.map_cons, List.nodup_cons] at h
    unfold alignBodies
    cases hm : map m.uid with
    | none =>
      simp only [hm, List.map_cons, Option.getD_none]
      rw [ih h.2]
    | some rfc822 =>
      simp only [hm, List.map_cons, Option.getD_some]
      rw [ih h.2]
      congr 1
      refine List.map_congr_left fun m' hm' => ?_
      have hne : m'.uid ≠ m.uid := fun heq => h.1 (heq ▸ List.mem_map_of_mem hm')
      rw [Function.update_of_ne hne]

/-- Entry `i` of a batch is `metas[i]` with the octets sent for its UID, or with none. -/
theorem fetchMessages_aligned {T : Type} {srt : CxxStd.StdSort} {tr : TransportOps T} {t t' : T}
    {mailbox : CxxStd.Bytes} {metas : List MessageMeta} {lines : List BodyLine}
    (hdistinct : (metas.map (·.uid)).Nodup) (hlen : (bodiesResponse lines).length < 2 ^ 63)
    (hanswer : tr.command t mailbox (fetchBodiesCommand (sortedUids srt metas)) =
      (.ok (bodiesResponse lines), t')) :
    (fetchMessages srt tr t mailbox metas).1 =
      .ok (metas.map fun m => rawOf m ((sentFor lines m.uid).getD [])) := by
  unfold fetchMessages
  by_cases hnil : metas = []
  · subst hnil
    rfl
  · rw [if_neg hnil, hanswer]
    simp only [request, parseFetchBodies_bodiesResponse hlen, CxxStd.Reply.map_ok]
    rw [alignBodies_distinct hdistinct]
    congr 1
    exact List.map_congr_left fun m _ => by rw [bodyMap_sentFor]

/-- A body that looks like another FETCH line, and one for a UID nobody asked for. -/
def lookalikes : List BodyLine :=
  [⟨1, 7, CxxStd.str "* 2 FETCH (UID 9 BODY[] {1}\r\nx)\r\n{3}"⟩, ⟨2, 8, [125]⟩]

theorem fetchMessages_aligned_lookalikes :
    (fetchMessages .insertion
      ⟨fun t _ _ => (.ok (bodiesResponse lookalikes), t), fun t _ _ => (.error "", t)⟩ () []
      [{ uid := 9 }, { uid := 7 }]).1 =
      .ok [rawOf { uid := 9 } [],
        rawOf { uid := 7 } (CxxStd.str "* 2 FETCH (UID 9 BODY[] {1}\r\nx)\r\n{3}")] :=
  @fetchMessages_aligned Unit _ _ _ () _ _ lookalikes (by decide) (by decide) rfl

end ImapClient
end Imap2Pst
