import Imap2Pst.Imap.Fetch
import Mathlib.Data.List.TakeWhile

/-!
# Imap.FetchOrder

A FETCH line that carries a body, with its data items in any order. The tokenizer of
`parseFetchBodies` stops at a flag list, so what comes after one is not read.

* `SentBody`            — one UID, one body, and whatever else the server adds.
* `bodyFold_eq`         — what the item loop knows is what came before the first flag list.
* `bodies_complete_iff` — the lines whose body is found.
-/

namespace Imap2Pst
namespace Imap

open CxxStd

/-- A data item that is neither a UID nor a body. -/
def FetchItem.IsFurther : FetchItem → Prop
  | uid _ => False
  | body _ => False
  | _ => True

structure SentBody where
  line : FetchLine
  uid : UInt32
  octets : Bytes
  further : List FetchItem
  order : line.items.Perm (.uid uid :: .body octets :: further)
  others : ∀ item ∈ further, item.IsFurther

def isFlags : FetchItem → Bool
  | .flags _ => true
  | _ => false

/-- The items before the first flag list. -/
def beforeFlags (items : List FetchItem) : List FetchItem := items.takeWhile fun item => !isFlags item

theorem mem_beforeFlags_iff {items : List FetchItem} {item : FetchItem} :
    item ∈ beforeFlags items ↔ item ∈ items ∧
      ∀ before names after, items = before ++ .flags names :: after → item ∈ before := by
  constructor
  · intro hmem
    refine ⟨(List.takeWhile_prefix _).subset hmem, ?_⟩
    rintro before names after rfl
    rw [beforeFlags, List.takeWhile_append] at hmem
    split at hmem
    · rw [List.takeWhile_cons_of_neg (by simp [isFlags]), List.append_nil] at hmem
      exact hmem
    · exact (List.takeWhile_prefix _).subset hmem
  · rintro ⟨hmem, hall⟩
    have hsplit : beforeFlags items ++ items.dropWhile (fun item => !isFlags item) = items :=
      List.takeWhile_append_dropWhile
    cases hrest : items.dropWhile fun item => !isFlags item with
    | nil =>
      rw [hrest, List.append_nil] at hsplit
      rwa [hsplit]
    | cons first rest =>
      have hfirst : isFlags first = true := by
        have hhead := List.head?_dropWhile_not (fun item => !isFlags item) items
        rw [hrest] at hhead
        simpa using hhead
      cases first with
      | flags names => exact hall _ names rest (by rw [← hrest, hsplit])
      | _ => cases hfirst

theorem beforeFlags_cons {item : FetchItem} (h : isFlags item = false) (rest : List FetchItem) :
    beforeFlags (item :: rest) = item :: beforeFlags rest :=
  List.takeWhile_cons_of_pos (by simp [h])

theorem beforeFlags_flags (names : List Bytes) (rest : List FetchItem) :
    beforeFlags (.flags names :: rest) = [] :=
  List.takeWhile_cons_of_neg (by simp [isFlags])

/-- The item loop knows what came before the first flag list. -/
theorem bodyFold_eq {uid : UInt32} {octets : Bytes} {items : List FetchItem}
    (huid : ∀ n, .uid n ∈ items → n = uid) (hbody : ∀ o, .body o ∈ items → o = octets)
    (n : Option UInt32) (o : Option Bytes) :
    bodyFold (n, o) items =
      (if .uid uid ∈ beforeFlags items then some uid else n,
        if .body octets ∈ beforeFlags items then some octets else o) := by
  induction items generalizing n o with
  | nil => rfl
  | cons item rest ih =>
    have ih := ih (fun n hn => huid n (List.mem_cons_of_mem _ hn))
      (fun o ho => hbody o (List.mem_cons_of_mem _ ho))
    cases item with
    | uid m =>
      rw [huid m List.mem_cons_self, bodyFold, ih, beforeFlags_cons rfl]
      simp
    | body x =>
      rw [hbody x List.mem_cons_self, bodyFold, ih, beforeFlags_cons rfl]
      simp
    | flags names =>
      rw [beforeFlags_flags]
      simp [bodyFold]
    | internalDate value =>
      have hskip : bodyFold (n, o) (.internalDate value :: rest) = bodyFold (n, o) rest := rfl
      rw [hskip, ih, beforeFlags_cons rfl]
      simp
    | size m =>
      have hskip : bodyFold (n, o) (.size m :: rest) = bodyFold (n, o) rest := rfl
      rw [hskip, ih, beforeFlags_cons rfl]
      simp

namespace SentBody

theorem mem_items (l : SentBody) {item : FetchItem} :
    item ∈ l.line.items ↔ item = .uid l.uid ∨ item = .body l.octets ∨ item ∈ l.further := by
  rw [l.order.mem_iff, List.mem_cons, List.mem_cons]

/-- The entry of a line that is read to its end. -/
def entry (l : SentBody) : FetchedBody := { uid := l.uid, rfc822 := l.octets }

theorem bodyOf_eq_some_iff (l : SentBody) :
    bodyOf l.line = some l.entry ↔
      .uid l.uid ∈ beforeFlags l.line.items ∧ .body l.octets ∈ beforeFlags l.line.items := by
  have huid : ∀ n, .uid n ∈ l.line.items → n = l.uid := by
    intro n hn
    obtain h | h | h := l.mem_items.1 hn
    · cases h
      rfl
    · cases h
    · exact absurd (l.others _ h) id
  have hbody : ∀ o, .body o ∈ l.line.items → o = l.octets := by
    intro o ho
    obtain h | h | h := l.mem_items.1 ho
    · cases h
    · cases h
      rfl
    · exact absurd (l.others _ h) id
  rw [bodyOf, bodyFold_eq huid hbody]
  by_cases hu : .uid l.uid ∈ beforeFlags l.line.items <;>
    by_cases hb : .body l.octets ∈ beforeFlags l.line.items <;> simp [hu, hb, entry]

end SentBody

/-- The bodies of a response are found, each with its UID, exactly when no flag list stands before
the UID or the body of its line. -/
theorem bodies_complete_iff {lines : List SentBody} (hwf : ∀ l ∈ lines, l.line.WellFormed)
    (hlen : (fetchResponse (lines.map SentBody.line)).length < 2 ^ 63) :
    parseFetchBodies (fetchResponse (lines.map SentBody.line)) =
        .ok (lines.map fun l => { uid := l.uid, rfc822 := l.octets }) ↔
      ∀ l ∈ lines, ∀ before names after, l.line.items = before ++ .flags names :: after →
        .uid l.uid ∈ before ∧ .body l.octets ∈ before := by
  have hwf' : ∀ l ∈ lines.map SentBody.line, l.WellFormed := by
    intro l hl
    obtain ⟨m, hm, rfl⟩ := List.mem_map.1 hl
    exact hwf m hm
  rw [parseFetchBodies_respond hwf' hlen, Reply.ok.injEq, List.filterMap_map,
    List.filterMap_eq_map_iff_forall_eq_some]
  refine forall₂_congr fun l _ => ?_
  rw [Function.comp_apply, ← SentBody.entry, l.bodyOf_eq_some_iff, mem_beforeFlags_iff,
    mem_beforeFlags_iff]
  constructor
  · rintro ⟨⟨-, huid⟩, -, hbody⟩ before names after hitems
    exact ⟨huid before names after hitems, hbody before names after hitems⟩
  · intro h
    exact ⟨⟨l.mem_items.2 (.inl rfl), fun before names after hitems => (h before names after hitems).1⟩,
      l.mem_items.2 (.inr (.inl rfl)),
      fun before names after hitems => (h before names after hitems).2⟩

/-- `* 1 FETCH (UID 7 BODY[] {2} hi FLAGS (\Seen))`, or with the flags first. -/
def flaggedLine (flagsFirst : Bool) : SentBody where
  line := {
    seq := 1
    items := if flagsFirst then [.flags [str "\\Seen"], .uid 7, .body (str "hi")]
      else [.uid 7, .body (str "hi"), .flags [str "\\Seen"]] }
  uid := 7
  octets := str "hi"
  further := [.flags [str "\\Seen"]]
  order := by cases flagsFirst <;> decide
  others := by
    intro item hitem
    rw [List.mem_singleton.1 hitem]
    trivial

theorem flaggedLine_wellFormed (flagsFirst : Bool) : (flaggedLine flagsFirst).line.WellFormed := by
  intro item hitem
  rcases (flaggedLine flagsFirst).mem_items.1 hitem with rfl | rfl | hfurther
  · trivial
  · trivial
  · rw [List.mem_singleton.1 hfurther]
    intro name hname
    rw [List.mem_singleton.1 hname]
    exact List.all_eq_true.1 (by decide)

theorem bodies_complete_flagsLast :
    parseFetchBodies (fetchResponse [(flaggedLine false).line]) =
      .ok [{ uid := 7, rfc822 := str "hi" }] := by
  refine (@bodies_complete_iff [flaggedLine false] ?_ (by decide +kernel)).2 ?_
  · intro l hl
    rw [List.mem_singleton.1 hl]
    exact flaggedLine_wellFormed false
  · intro l hl before names after hitems
    rw [List.mem_singleton.1 hl] at hitems ⊢
    exact ⟨((mem_beforeFlags_iff).1 (by decide)).2 before names after hitems,
      ((mem_beforeFlags_iff).1 (by decide)).2 before names after hitems⟩

/-- The flags of a message hide its body. -/
theorem body_after_flags_lost :
    parseFetchBodies (fetchResponse [(flaggedLine true).line]) = .ok [] ∧
      parseFetchBodies (fetchResponse [(flaggedLine true).line]) ≠
        .ok [{ uid := 7, rfc822 := str "hi" }] := by
  have hwf : ∀ l ∈ [(flaggedLine true).line], l.WellFormed := by
    intro l hl
    rw [List.mem_singleton.1 hl]
    exact flaggedLine_wellFormed true
  have hparse := parseFetchBodies_respond hwf (by decide +kernel)
  have hnone : [(flaggedLine true).line].filterMap bodyOf = [] := rfl
  rw [hparse, hnone]
  exact ⟨rfl, fun h => by cases h⟩

end Imap
end Imap2Pst
