import Imap2Pst.Pst.PstWriter

/-!
# Pst.Archive

What the PST writer is for: a tree of folders, and messages in them in the order they came.

* `Archive`          — the folders and the messages, each with its NID.
* `Archive.after`    — the archive after a call that returned or threw.
* `Archive.Ok`       — NIDs are given out in order, and a folder is below one made before it.
* `Archive.Ok.rooted` — from every folder the parents lead to the root.
-/

namespace Imap2Pst
namespace Pst

open CxxStd

structure Shelf where
  nid : Nat
  parent : Nat
  name : Bytes

structure Letter where
  nid : Nat
  folder : Nat
  message : Message

/-- The root is the first folder, and its own parent. -/
structure Archive where
  shelves : List Shelf
  letters : List Letter := []
  /-- How many messages have been given a NID, those included that were not stored after all. -/
  numbered : Nat := 0

/-- The NID of the folder with `i` before it. -/
def folderNid : Nat → Nat
  | 0 => kNidRootFolder
  | i + 1 => makeNid kNidTypeNormalFolder (kFirstUserNidIndex + i)

/-- The NID of the message with `j` before it. -/
def messageNid (j : Nat) : Nat := makeNid kNidTypeNormalMessage (kFirstUserNidIndex + j)

theorem folderNid_inj {i j : Nat} (hi : i ≤ 2 ^ 27 - kFirstUserNidIndex)
    (hj : j ≤ 2 ^ 27 - kFirstUserNidIndex) (h : folderNid i = folderNid j) : i = j := by
  have hroot : kNidRootFolder = 32 * 9 + 2 := rfl
  have hfirst : kFirstUserNidIndex = 1024 := rfl
  have htype : kNidTypeNormalFolder = 2 := rfl
  have hsucc {k : Nat} (hk : k + 1 ≤ 2 ^ 27 - kFirstUserNidIndex) :
      folderNid (k + 1) = 32 * (kFirstUserNidIndex + k) + 2 :=
    makeNid_of_lt (by decide) (by omega)
  cases i with
  | zero =>
    cases j with
    | zero => rfl
    | succ j =>
      rw [hsucc hj, folderNid] at h
      omega
  | succ i =>
    cases j with
    | zero =>
      rw [hsucc hi, folderNid] at h
      omega
    | succ j =>
      rw [hsucc hi, hsucc hj] at h
      omega

theorem messageNid_inj {i j : Nat} (hi : i < 2 ^ 27 - kFirstUserNidIndex)
    (hj : j < 2 ^ 27 - kFirstUserNidIndex) (h : messageNid i = messageNid j) : i = j := by
  have hfirst : kFirstUserNidIndex = 1024 := rfl
  rw [messageNid, messageNid, makeNid_of_lt (by decide) (by omega),
    makeNid_of_lt (by decide) (by omega)] at h
  omega

theorem folderNid_ne_zero (i : Nat) : folderNid i ≠ 0 := by
  cases i with
  | zero => decide
  | succ i =>
    rw [folderNid, makeNid_eq (by decide)]
    have htype : kNidTypeNormalFolder = 2 := rfl
    omega

namespace Archive

def nids (a : Archive) : List Nat := a.shelves.map Shelf.nid

/-- The folders right below one, in the order they were made. -/
def children (a : Archive) (nid : Nat) : List Shelf := (a.shelves.drop 1).filter (·.parent = nid)

/-- The messages of a folder, in the order they came. -/
def inside (a : Archive) (nid : Nat) : List Letter := a.letters.filter (·.folder = nid)

def unread (a : Archive) (nid : Nat) : Nat := (a.inside nid).countP fun l => !l.message.seen

/-- The parent of a folder that is there. -/
def parentOf (a : Archive) (nid : Nat) : Nat :=
  ((a.shelves.find? (·.nid = nid)).map Shelf.parent).getD 0

def addShelf (a : Archive) (parent : Nat) (name : Bytes) : Archive :=
  { a with shelves := a.shelves ++ [⟨folderNid a.shelves.length, parent, name⟩] }

/-- A message that is given a NID and is not stored. -/
def skip (a : Archive) : Archive := { a with numbered := a.numbered + 1 }

def addLetter (a : Archive) (folder : Nat) (m : Message) : Archive :=
  { a with
    letters := a.letters ++ [⟨messageNid a.numbered, folder, m⟩]
    numbered := a.numbered + 1 }

/-- The archive after a call; whether the call returned. -/
def after (a : Archive) : PstWriter.PstCall → Bool → Archive
  | .createFolder parent name, true => a.addShelf parent name
  | .addMessage folder m, true => a.addLetter folder m
  | .createFolder _ _, false => a
  | .addMessage folder _, false => if folder ∈ a.nids then a.skip else a

/-- The root alone. -/
def bare : Archive := { shelves := [⟨kNidRootFolder, kNidRootFolder, str "Root - Mailbox"⟩] }

/-- The folders every store has: the root, and those it advertises. -/
def start : Archive :=
  ((((((bare.addShelf (folderNid 0) (str "Top of Personal Folders")).addShelf
    (folderNid 1) (str "Deleted Items")).addShelf
    (folderNid 1) (str "Sent Items")).addShelf
    (folderNid 1) (str "Outbox")).addShelf
    (folderNid 0) (str "Search Root")).addShelf
    (folderNid 0) (str "Views")).addShelf
    (folderNid 0) (str "Common Views")

/-- The archive after some calls, each with what it returned, if anything. -/
def afterAll (a : Archive) (calls : List PstWriter.PstCall) (results : List (Option Unit)) :
    Archive :=
  (calls.zip results).foldl (fun a c => a.after c.1 c.2.isSome) a

/-! ## The invariant -/

/-- The numbers of folders and messages fit the index of a NID. -/
structure Few (a : Archive) : Prop where
  shelves : a.shelves.length ≤ 2 ^ 27 - kFirstUserNidIndex
  letters : a.numbered ≤ 2 ^ 27 - kFirstUserNidIndex

/-- What holds of every archive. -/
structure Ok (a : Archive) : Prop where
  nids : a.nids = (List.range a.shelves.length).map folderNid
  root : ∃ name, a.shelves.head? = some ⟨kNidRootFolder, kNidRootFolder, name⟩
  /-- A folder is below one that was made before it. -/
  below : ∀ i s, a.shelves[i + 1]? = some s → ∃ j ≤ i, s.parent = folderNid j
  numbers : (a.letters.map Letter.nid).Sublist ((List.range a.numbered).map messageNid)
  placed : ∀ l ∈ a.letters, l.folder ∈ a.nids

variable {a : Archive}

theorem Ok.nodup (h : a.Ok) (hfew : a.Few) : a.nids.Nodup := by
  rw [h.nids]
  refine List.Nodup.map_on (fun i hi j hj => ?_) List.nodup_range
  have hi' := List.mem_range.1 hi
  have hj' := List.mem_range.1 hj
  have hlen := hfew.shelves
  exact folderNid_inj (by omega) (by omega)

theorem Ok.letters_nodup (h : a.Ok) (hfew : a.Few) : (a.letters.map Letter.nid).Nodup := by
  refine h.numbers.nodup (List.Nodup.map_on (fun i hi j hj => ?_) List.nodup_range)
  have hi' := List.mem_range.1 hi
  have hj' := List.mem_range.1 hj
  have hlen := hfew.letters
  exact messageNid_inj (by omega) (by omega)

theorem Ok.getElem? (h : a.Ok) {i : Nat} {s : Shelf} (hs : a.shelves[i]? = some s) :
    s.nid = folderNid i := by
  obtain ⟨hlt, -⟩ := List.getElem?_eq_some_iff.1 hs
  have hnid : a.nids[i]? = some s.nid := by rw [Archive.nids, List.getElem?_map, hs]; rfl
  rw [h.nids, List.getElem?_map, List.getElem?_range hlt] at hnid
  exact (Option.some.inj hnid).symm

/-- The NID tells the place. -/
theorem Ok.getElem?_inj (h : a.Ok) (hfew : a.Few) {i j : Nat} {s t : Shelf}
    (hs : a.shelves[i]? = some s) (ht : a.shelves[j]? = some t) (heq : s.nid = t.nid) : i = j := by
  obtain ⟨hi, -⟩ := List.getElem?_eq_some_iff.1 hs
  obtain ⟨hj, -⟩ := List.getElem?_eq_some_iff.1 ht
  have hlen := hfew.shelves
  rw [h.getElem? hs, h.getElem? ht] at heq
  exact folderNid_inj (by omega) (by omega) heq

theorem Ok.folderNid_mem (h : a.Ok) {i : Nat} (hi : i < a.shelves.length) :
    folderNid i ∈ a.nids := by
  rw [h.nids]
  exact List.mem_map_of_mem (List.mem_range.2 hi)

theorem Ok.nonempty (h : a.Ok) : 0 < a.shelves.length := by
  obtain ⟨name, hroot⟩ := h.root
  cases hshelves : a.shelves with
  | nil =>
    rw [hshelves] at hroot
    cases hroot
  | cons s l => exact Nat.succ_pos _

/-- The next folder has a NID of its own. -/
theorem Ok.fresh (h : a.Ok) {parent : Nat} {name : Bytes} (hfew : (a.addShelf parent name).Few) :
    folderNid a.shelves.length ∉ a.nids := by
  rw [h.nids]
  intro hmem
  obtain ⟨i, hi, heq⟩ := List.mem_map.1 hmem
  have hi' := List.mem_range.1 hi
  have hlen := hfew.shelves
  rw [addShelf, List.length_append, List.length_singleton] at hlen
  have hsame := folderNid_inj (by omega) (by omega) heq
  omega

theorem few_addShelf (hfew : a.shelves.length < 8) (hnone : a.numbered = 0) {parent : Nat}
    {name : Bytes} : (a.addShelf parent name).Few := by
  refine ⟨?_, ?_⟩
  · rw [addShelf, List.length_append, List.length_singleton]
    exact Nat.le_trans hfew (by decide)
  · show a.numbered ≤ _
    rw [hnone]
    exact Nat.zero_le _

/-- A call takes nothing away. -/
theorem after_le (a : Archive) (call : PstWriter.PstCall) (returned : Bool) :
    a.shelves.length ≤ (a.after call returned).shelves.length ∧
      a.numbered ≤ (a.after call returned).numbered := by
  have hshelf (parent : Nat) (name : Bytes) :
      a.shelves.length ≤ (a.addShelf parent name).shelves.length := by
    rw [addShelf, List.length_append]
    exact Nat.le_add_right _ _
  cases call with
  | createFolder parent name =>
    cases returned with
    | true => exact ⟨hshelf parent name, le_rfl⟩
    | false => exact ⟨le_rfl, le_rfl⟩
  | addMessage folder m =>
    cases returned with
    | true => exact ⟨le_rfl, Nat.le_succ _⟩
    | false =>
      rw [after]
      split
      · exact ⟨le_rfl, Nat.le_succ _⟩
      · exact ⟨le_rfl, le_rfl⟩

theorem Few.of_after {call : PstWriter.PstCall} {returned : Bool}
    (h : (a.after call returned).Few) : a.Few :=
  ⟨(a.after_le call returned).1.trans h.shelves, (a.after_le call returned).2.trans h.letters⟩

theorem Few.of_afterAll {calls : List PstWriter.PstCall} {results : List (Option Unit)}
    (h : (a.afterAll calls results).Few) : a.Few := by
  induction calls generalizing a results with
  | nil => exact h
  | cons call calls ih =>
    cases results with
    | nil => exact h
    | cons r results => exact (ih h).of_after

/-! ## Steps -/

theorem bare_ok : bare.Ok where
  nids := rfl
  root := ⟨_, rfl⟩
  below i s h := by cases h
  numbers := List.Sublist.slnil
  placed l hl := by cases hl

theorem Ok.addShelf (h : a.Ok) {parent : Nat} (hparent : parent ∈ a.nids) (name : Bytes) :
    (a.addShelf parent name).Ok := by
  have hpos := h.nonempty
  refine ⟨?_, ?_, fun i s hs => ?_, h.numbers, fun l hl => ?_⟩
  · show (a.shelves ++ [_]).map Shelf.nid = _
    rw [List.map_append, Archive.addShelf, List.length_append, List.length_singleton,
      List.range_succ, List.map_append]
    exact congrArg (· ++ _) h.nids
  · obtain ⟨root, hroot⟩ := h.root
    refine ⟨root, ?_⟩
    show (a.shelves ++ [_]).head? = _
    rw [List.head?_append, hroot]
    rfl
  · rcases Nat.lt_or_ge (i + 1) a.shelves.length with hlt | hge
    · exact h.below i s ((List.getElem?_append_left hlt).symm.trans hs)
    · have hs' : (a.shelves ++ [⟨folderNid a.shelves.length, parent, name⟩])[i + 1]? = some s := hs
      rw [List.getElem?_append_right hge, List.getElem?_singleton] at hs'
      split at hs'
      · cases hs'
        rw [h.nids] at hparent
        obtain ⟨j, hj, rfl⟩ := List.mem_map.1 hparent
        have hj' := List.mem_range.1 hj
        exact ⟨j, by omega, rfl⟩
      · cases hs'
  · show l.folder ∈ (a.shelves ++ [_]).map Shelf.nid
    rw [List.map_append]
    exact List.mem_append_left _ (h.placed l hl)

theorem Ok.skip (h : a.Ok) : a.skip.Ok := by
  refine ⟨h.nids, h.root, h.below, h.numbers.trans ?_, h.placed⟩
  show List.Sublist _ ((List.range (a.numbered + 1)).map messageNid)
  rw [List.range_succ, List.map_append]
  exact List.sublist_append_left _ _

theorem Ok.addLetter (h : a.Ok) {folder : Nat} (hfolder : folder ∈ a.nids) (m : Message) :
    (a.addLetter folder m).Ok := by
  refine ⟨h.nids, h.root, h.below, ?_, fun l hl => ?_⟩
  · show List.Sublist ((a.letters ++ [_]).map Letter.nid)
      ((List.range (a.numbered + 1)).map messageNid)
    rw [List.map_append, List.range_succ, List.map_append]
    exact h.numbers.append (List.Sublist.refl _)
  · rcases List.mem_append.1 hl with hl | hl
    · exact h.placed l hl
    · rw [List.mem_singleton.1 hl]
      exact hfolder

/-! ## The tree -/

theorem Ok.find? (h : a.Ok) (hfew : a.Few) {s : Shelf} (hs : s ∈ a.shelves) :
    a.shelves.find? (fun t => t.nid = s.nid) = some s :=
  (find?_key_eq_some (h.nodup hfew)).2 ⟨hs, rfl⟩

/-- From every folder the parents lead to the root. -/
theorem Ok.rooted (h : a.Ok) (hfew : a.Few) {s : Shelf} (hs : s ∈ a.shelves) :
    ∃ k, a.parentOf^[k] s.nid = kNidRootFolder := by
  obtain ⟨i, hi⟩ := List.mem_iff_getElem?.1 hs
  -- the parent of a folder was made before it
  induction i using Nat.strong_induction_on generalizing s with
  | _ i ih =>
    cases i with
    | zero => exact ⟨0, h.getElem? hi⟩
    | succ i =>
      obtain ⟨j, hj, hparent⟩ := h.below i s hi
      obtain ⟨hlt, -⟩ := List.getElem?_eq_some_iff.1 hi
      have hget := List.getElem?_eq_getElem (l := a.shelves) (i := j) (by omega)
      obtain ⟨k, hk⟩ := ih j (by omega) (List.mem_of_getElem? hget) hget
      refine ⟨k + 1, ?_⟩
      rw [Function.iterate_succ_apply, parentOf, h.find? hfew hs, Option.map_some, Option.getD_some,
        hparent, ← h.getElem? hget]
      exact hk

end Archive

end Pst
end Imap2Pst
