import Mathlib.Data.List.Induction
import Mathlib.Data.List.Nodup
import Mathlib.Order.Basic

/-!
# Std.Index

Search in a sorted multi-level index. A level is a list of entries, each with a separator and a
share of the records; the separator is the key of the first record of the share. A search follows
the last entry whose separator is at most the key it looks for.
-/

namespace CxxStd

variable {α ρ : Type} {sep : α → Nat} {share : α → List ρ} {key : ρ → Nat}

/-- The last entry with a separator of at most `k`. -/
def floorEntry (sep : α → Nat) (entries : List α) (k : Nat) : Option α :=
  (entries.filter fun e => sep e ≤ k).getLast?

theorem floorEntry_map {β : Type} (f : β → α) (entries : List β) (k : Nat) :
    floorEntry sep (entries.map f) k = (floorEntry (fun b => sep (f b)) entries k).map f := by
  unfold floorEntry
  rw [List.filter_map, List.getLast?_map]
  rfl

theorem floorEntry_congr {sep' : α → Nat} {entries : List α} {k : Nat}
    (h : ∀ e ∈ entries, sep e = sep' e) : floorEntry sep entries k = floorEntry sep' entries k := by
  unfold floorEntry
  rw [List.filter_congr fun e he => by rw [h e he]]

theorem mem_of_floorEntry {entries : List α} {k : Nat} {e : α}
    (h : floorEntry sep entries k = some e) : e ∈ entries :=
  (List.mem_filter.1 (List.mem_of_getLast? h)).1

/-- Each separator is the key of the first record of its share. -/
def Separates (sep : α → Nat) (share : α → List ρ) (key : ρ → Nat) (e : α) : Prop :=
  ∃ r rest, share e = r :: rest ∧ key r = sep e

/-- Keys that are all different decide what is found. -/
theorem find?_key_eq_some {κ : Type} [DecidableEq κ] {key : ρ → κ} {records : List ρ}
    (hnodup : (records.map key).Nodup) {k : κ} {r : ρ} :
    records.find? (fun r => key r = k) = some r ↔ r ∈ records ∧ key r = k := by
  constructor
  · intro h
    exact ⟨List.mem_of_find?_eq_some h, by simpa using List.find?_some h⟩
  · rintro ⟨hr, rfl⟩
    cases hfind : records.find? (fun r' => key r' = key r) with
    | none => exact absurd (decide_eq_true rfl) (List.find?_eq_none.1 hfind r hr)
    | some r' =>
      have hkey : key r' = key r := by simpa using List.find?_some hfind
      rw [List.inj_on_of_nodup_map hnodup (List.mem_of_find?_eq_some hfind) hr hkey]

/-- What is found does not depend on the order of the records. -/
theorem find?_key_perm {records records' : List ρ} (hperm : records.Perm records')
    (hnodup : (records.map key).Nodup) (k : Nat) :
    records.find? (fun r => key r = k) = records'.find? fun r => key r = k := by
  apply Option.ext
  intro r
  rw [find?_key_eq_some hnodup, find?_key_eq_some ((hperm.map key).nodup_iff.1 hnodup),
    hperm.mem_iff]

/-- The search finds what the whole run of records has. The induction is on the last entry: a key
at or above its separator is not in the shares before it, any other key not in its own. -/
theorem find?_flatMap_floorEntry {entries : List α} (k : Nat)
    (hsep : ∀ e ∈ entries, Separates sep share key e)
    (hsorted : (entries.flatMap share).Pairwise fun a b => key a < key b) :
    (entries.flatMap share).find? (fun r => key r = k) =
      (floorEntry sep entries k).bind fun e => (share e).find? fun r => key r = k := by
  induction entries using List.reverseRecOn with
  | nil => rfl
  | append_singleton entries e ih =>
    rw [List.flatMap_append, List.flatMap_singleton] at hsorted ⊢
    obtain ⟨hbefore, hlast, hcross⟩ := List.pairwise_append.1 hsorted
    obtain ⟨r₀, tail, hshare, hkey⟩ := hsep e (by simp)
    rw [List.find?_append]
    by_cases hk : sep e ≤ k
    · have hnone : (entries.flatMap share).find? (fun r => key r = k) = none := by
        rw [List.find?_eq_none]
        intro r hr heq
        have hlt := hcross r hr r₀ (by rw [hshare]; exact List.mem_cons_self)
        simp only [decide_eq_true_eq] at heq
        omega
      have hfloor : floorEntry sep (entries ++ [e]) k = some e := by
        simp [floorEntry, List.filter_append, hk]
      rw [hnone, Option.none_or, hfloor, Option.bind_some]
    · have hnone : (share e).find? (fun r => key r = k) = none := by
        rw [List.find?_eq_none]
        intro r hr heq
        have hle : key r₀ ≤ key r := by
          rw [hshare] at hr hlast
          rcases List.mem_cons.1 hr with rfl | hr
          · exact Nat.le_refl _
          · exact Nat.le_of_lt ((List.pairwise_cons.1 hlast).1 r hr)
        simp only [decide_eq_true_eq] at heq
        omega
      have hfloor : floorEntry sep (entries ++ [e]) k = floorEntry sep entries k := by
        simp [floorEntry, List.filter_append, hk]
      rw [hnone, Option.or_none, hfloor]
      exact ih (fun e' he' => hsep e' (by simp [he'])) hbefore

end CxxStd
