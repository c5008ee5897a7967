import Imap2Pst.Pst.Format
import Mathlib.Data.List.Range

/-!
# Pst.Folders

The folders of `PstWriter`: those `init` makes, and the ones `createFolder` adds below them.

* `Below`            — the chain of names between a folder and the one on top.
* `createFolder_new` — a new folder takes the next index, and its parent lists it.
* `Grown.nodup_iff`  — the NIDs differ as long as the index has not come round to the root's.
-/

namespace Imap2Pst
namespace Pst

open CxxStd

structure Folder where
  nid : Nat
  parent : Nat
  name : Bytes
  children : List Nat := []
  messageCount : Nat := 0
  unread : Nat := 0
  deriving DecidableEq, Repr

def Folder.adopt (nid : Nat) (f : Folder) : Folder := { f with children := f.children ++ [nid] }

def Folder.count (seen : Bool) (f : Folder) : Folder :=
  { f with
    messageCount := f.messageCount + 1
    unread := if seen then f.unread else (f.unread + 1) % 2 ^ 32 }

/-- `folders_` and `next_folder_index_`. -/
structure FolderTable where
  folders : List Folder := []
  nextFolderIndex : Nat := kFirstUserNidIndex

namespace FolderTable

/-- `folder`: the first folder with the NID. -/
def folder? (t : FolderTable) (id : Nat) : Option Folder := t.folders.find? (·.nid = id)

/-- Changes the first folder with the NID. -/
def updateFirst (id : Nat) (g : Folder → Folder) : List Folder → List Folder
  | [] => []
  | f :: rest => if f.nid = id then g f :: rest else f :: updateFirst id g rest

def update (t : FolderTable) (id : Nat) (g : Folder → Folder) : FolderTable :=
  { t with folders := updateFirst id g t.folders }

def makeFolder (t : FolderTable) (parent : Nat) (name : Bytes) (forcedNid : Nat) :
    Nat × FolderTable :=
  let nid := if forcedNid ≠ 0 then forcedNid else makeNid kNidTypeNormalFolder t.nextFolderIndex
  let t' : FolderTable :=
    { folders := t.folders ++ [{ nid, parent, name }]
      nextFolderIndex :=
        if forcedNid ≠ 0 then t.nextFolderIndex else (t.nextFolderIndex + 1) % 2 ^ 32 }
  (nid, if parent ≠ 0 then t'.update parent (Folder.adopt nid) else t')

def createFolder (t : FolderTable) (parent : Nat) (name : Bytes) :
    Except String Nat × FolderTable :=
  match t.folder? parent with
  | none => (.error ("unknown folder id " ++ toString parent), t)
  | some _ =>
    let (id, t) := t.makeFolder parent name 0
    (.ok id, t)

/-- The counts of a folder, once a message is in its contents table. -/
def countMessage (t : FolderTable) (id : Nat) (seen : Bool) : FolderTable :=
  t.update id (Folder.count seen)

/-- The folders of `init`, and the one on top of what the user sees. -/
def init : Nat × FolderTable :=
  let (root, t) := makeFolder {} 0 (str "Root - Mailbox") kNidRootFolder
  -- the root folder is its own parent
  let t := t.update root fun f => { f with parent := kNidRootFolder }
  let (ipmSubtree, t) := t.makeFolder kNidRootFolder (str "Top of Personal Folders") 0
  let (_, t) := t.makeFolder ipmSubtree (str "Deleted Items") 0
  let (_, t) := t.makeFolder ipmSubtree (str "Sent Items") 0
  let (_, t) := t.makeFolder ipmSubtree (str "Outbox") 0
  let (_, t) := t.makeFolder root (str "Search Root") 0
  let (_, t) := t.makeFolder root (str "Views") 0
  let (_, t) := t.makeFolder root (str "Common Views") 0
  (ipmSubtree, t)

def ipmSubtree : Nat := init.1

def kBuiltinFolderCount : Nat := 8

/-! ## The chain of names -/

/-- From the folder `top` down to the folder, each is listed by its parent; the names on the way. -/
inductive Below (t : FolderTable) (top : Nat) : Nat → List Bytes → Prop
  | top : Below t top top []
  | child {id : Nat} {f p : Folder} {path : List Bytes} (found : t.folder? id = some f)
      (above : t.folder? f.parent = some p) (listed : id ∈ p.children)
      (below : Below t top f.parent path) : Below t top id (path ++ [f.name])

/-- Every folder of `t` is there, under the same name and parent, with the children it had. -/
def Extends (t t' : FolderTable) : Prop :=
  ∀ id f, t.folder? id = some f → ∃ f', t'.folder? id = some f' ∧ f'.parent = f.parent ∧
    f'.name = f.name ∧ f.children ⊆ f'.children

theorem Extends.refl (t : FolderTable) : Extends t t :=
  fun _ f h => ⟨f, h, rfl, rfl, List.Subset.refl _⟩

theorem Extends.trans {t t' t'' : FolderTable} (h : Extends t t') (h' : Extends t' t'') :
    Extends t t'' := by
  intro id f hf
  obtain ⟨f', hf', hparent, hname, hchildren⟩ := h id f hf
  obtain ⟨f'', hf'', hparent', hname', hchildren'⟩ := h' id f' hf'
  exact ⟨f'', hf'', hparent'.trans hparent, hname'.trans hname,
    List.Subset.trans hchildren hchildren'⟩

theorem Below.extends {t t' : FolderTable} {top id : Nat} {path : List Bytes}
    (h : Below t top id path) (hext : Extends t t') : Below t' top id path := by
  induction h with
  | top => exact .top
  | child found above listed below ih =>
    obtain ⟨f', hf', hparent, hname, -⟩ := hext _ _ found
    obtain ⟨p', hp', -, -, hchildren⟩ := hext _ _ above
    rw [← hname]
    rw [← hparent] at hp' ih
    exact .child hf' hp' (hchildren listed) ih

/-! ## Updates -/

theorem find?_updateFirst (g : Folder → Folder) (hg : ∀ f, (g f).nid = f.nid) (id i : Nat)
    (folders : List Folder) :
    (updateFirst id g folders).find? (·.nid = i) =
      if i = id then (folders.find? (·.nid = i)).map g else folders.find? (·.nid = i) := by
  induction folders with
  | nil => simp [updateFirst]
  | cons f rest ih =>
    by_cases hid : f.nid = id
    · by_cases hi : f.nid = i
      · simp [updateFirst, hid, hg, hid.symm.trans hi]
      · have hne : i ≠ id := fun h => hi (hid.trans h.symm)
        simp [updateFirst, hid, hg, hne, hne.symm]
    · by_cases hi : f.nid = i
      · have hne : i ≠ id := fun h => hid (hi.trans h)
        simp [updateFirst, hi, hne]
      · simp [updateFirst, hid, hi, ih]

theorem updateFirst_map {α : Type} (g : Folder → Folder) {field : Folder → α}
    (hg : ∀ f, field (g f) = field f) (id : Nat) (folders : List Folder) :
    (updateFirst id g folders).map field = folders.map field := by
  induction folders with
  | nil => rfl
  | cons f rest ih =>
    simp only [updateFirst]
    split
    · rw [List.map_cons, hg, List.map_cons]
    · rw [List.map_cons, ih, List.map_cons]

/-- An update that adds to a folder keeps what was there. -/
theorem update_extends (g : Folder → Folder) (hg : ∀ f, (g f).nid = f.nid)
    (hkeep : ∀ f, (g f).parent = f.parent ∧ (g f).name = f.name ∧ f.children ⊆ (g f).children)
    (t : FolderTable) (id : Nat) : Extends t (t.update id g) := by
  intro i f hf
  have hfind : (t.update id g).folder? i = _ := find?_updateFirst g hg id i t.folders
  rw [folder?] at hf
  rw [hfind, hf]
  split
  · exact ⟨g f, rfl, hkeep f⟩
  · exact ⟨f, rfl, rfl, rfl, List.Subset.refl _⟩

theorem append_extends (t : FolderTable) (f : Folder) (next : Nat) :
    Extends t { folders := t.folders ++ [f], nextFolderIndex := next } := by
  intro i g hg
  refine ⟨g, ?_, rfl, rfl, List.Subset.refl _⟩
  rw [folder?] at hg ⊢
  rw [List.find?_append, hg]
  rfl

theorem countMessage_extends (t : FolderTable) (id : Nat) (seen : Bool) :
    Extends t (t.countMessage id seen) :=
  update_extends (Folder.count seen) (fun _ => rfl) (fun _ => ⟨rfl, rfl, List.Subset.refl _⟩) t id

theorem folder?_isSome_iff {t : FolderTable} {id : Nat} :
    (t.folder? id).isSome ↔ id ∈ t.folders.map Folder.nid := by
  simp [folder?, List.find?_isSome]

/-- What `createFolder` does below a folder that is there. -/
theorem createFolder_new {t : FolderTable} {parent : Nat} (hzero : parent ≠ 0)
    (hparent : parent ∈ t.folders.map Folder.nid) (name : Bytes) :
    ∃ t', let nid := makeNid kNidTypeNormalFolder t.nextFolderIndex
      t.createFolder parent name = (.ok nid, t') ∧
      t'.nextFolderIndex = (t.nextFolderIndex + 1) % 2 ^ 32 ∧
      t'.folders.map Folder.nid = t.folders.map Folder.nid ++ [nid] ∧
      t'.folders.map Folder.parent = t.folders.map Folder.parent ++ [parent] ∧
      Extends t t' ∧
      (nid ∉ t.folders.map Folder.nid → ∀ {top : Nat} {path : List Bytes},
        Below t top parent path → Below t' top nid (path ++ [name])) := by
  obtain ⟨p, hp⟩ := Option.isSome_iff_exists.1 (folder?_isSome_iff.2 hparent)
  let nid := makeNid kNidTypeNormalFolder t.nextFolderIndex
  let made : FolderTable :=
    { folders := t.folders ++ [{ nid, parent, name }]
      nextFolderIndex := (t.nextFolderIndex + 1) % 2 ^ 32 }
  have hmade : Extends t made := append_extends t _ _
  have hadopt : Extends made (made.update parent (.adopt nid)) :=
    update_extends (.adopt nid) (fun _ => rfl)
      (fun _ => ⟨rfl, rfl, List.subset_append_left _ _⟩) made _
  refine ⟨made.update parent (.adopt nid), ?_, rfl, ?_, ?_, hmade.trans hadopt, ?_⟩
  · simp only [createFolder, hp, makeFolder, ne_eq, not_true_eq_false, if_false, if_pos hzero]
    rfl
  · exact (updateFirst_map (.adopt nid) (fun _ => rfl) _ _).trans List.map_append
  · exact (updateFirst_map (.adopt nid) (fun _ => rfl) _ _).trans List.map_append
  · intro hfresh top path hbelow
    have hnone : t.folders.find? (·.nid = nid) = none := by
      refine List.find?_eq_none.2 fun f hf hnid => hfresh ?_
      exact List.mem_map.2 ⟨f, hf, by simpa using hnid⟩
    have hne : nid ≠ parent := by
      rintro hnid
      rw [← hnid] at hparent
      exact hfresh hparent
    have hself : (made.update parent (.adopt nid)).folder? nid = some { nid, parent, name } := by
      refine (find?_updateFirst (.adopt nid) (fun _ => rfl) parent nid made.folders).trans ?_
      rw [if_neg hne, List.find?_append, hnone]
      simp
    have habove : (made.update parent (.adopt nid)).folder? parent = some (p.adopt nid) := by
      refine (find?_updateFirst (.adopt nid) (fun _ => rfl) parent parent made.folders).trans ?_
      rw [folder?] at hp
      rw [if_pos rfl, List.find?_append, hp]
      rfl
    exact .child hself habove (by simp [Folder.adopt]) (hbelow.extends (hmade.trans hadopt))

/-! ## The folders of a run -/

/-- The NID of the folder made after `i` others besides those of `init`. -/
def createdNid (i : Nat) : Nat :=
  makeNid kNidTypeNormalFolder (kFirstUserNidIndex + (kBuiltinFolderCount - 1) + i)

/-- The folders of `init`, and `n` more. -/
structure Grown (t : FolderTable) (n : Nat) : Prop where
  next : t.nextFolderIndex = (kFirstUserNidIndex + (kBuiltinFolderCount - 1) + n) % 2 ^ 32
  nids : t.folders.map Folder.nid =
    init.2.folders.map Folder.nid ++ (List.range n).map createdNid
  parents : ∀ id ∈ (t.folders.map Folder.parent).drop kBuiltinFolderCount,
    id = ipmSubtree ∨ ∃ i < n, id = createdNid i

theorem createdNid_eq (i : Nat) : createdNid i = 32 * ((1031 + i) % 2 ^ 27) + 2 :=
  makeNid_eq (by decide) _

theorem createdNid_ne_zero (i : Nat) : createdNid i ≠ 0 := by
  rw [createdNid_eq]
  omega

theorem init_nids : init.2.folders.map Folder.nid =
    [0x122, 0x8002, 0x8022, 0x8042, 0x8062, 0x8082, 0x80A2, 0x80C2] := by decide +kernel

theorem ipmSubtree_eq : ipmSubtree = 0x8002 := by decide +kernel

/-- The index of a NID has 27 bits: after so many folders comes the one of the root. -/
def kFreeFolderIndexes : Nat := 2 ^ 27 - 1022

theorem createdNid_fresh {n : Nat} (h : n < kFreeFolderIndexes) :
    createdNid n ∉ init.2.folders.map Folder.nid ++ (List.range n).map createdNid := by
  rw [kFreeFolderIndexes] at h
  rw [init_nids, List.mem_append, not_or]
  constructor
  · rw [createdNid_eq]
    simp only [List.mem_cons, List.not_mem_nil, or_false]
    omega
  · intro hmem
    obtain ⟨i, hi, heq⟩ := List.mem_map.1 hmem
    have := List.mem_range.1 hi
    rw [createdNid_eq, createdNid_eq] at heq
    omega

theorem createdNids_nodup {n : Nat} (h : n ≤ kFreeFolderIndexes) :
    (init.2.folders.map Folder.nid ++ (List.range n).map createdNid).Nodup := by
  induction n with
  | zero =>
    rw [init_nids]
    decide
  | succ n ih =>
    rw [List.range_succ, List.map_append, ← List.append_assoc]
    exact (List.perm_append_comm.nodup_iff).1 (List.nodup_cons.2 ⟨createdNid_fresh h, ih (by omega)⟩)

/-- The folders have NIDs of their own exactly when their number fits the index. -/
theorem Grown.nodup_iff {t : FolderTable} {n : Nat} (h : Grown t n) :
    (t.folders.map Folder.nid).Nodup ↔ n ≤ kFreeFolderIndexes := by
  rw [h.nids]
  constructor
  · intro hnodup
    by_contra hmany
    refine (List.nodup_append.1 hnodup).2.2 0x122 (by rw [init_nids]; simp) 0x122 ?_ rfl
    refine List.mem_map.2 ⟨kFreeFolderIndexes, List.mem_range.2 (by omega), ?_⟩
    rw [createdNid_eq]
    decide
  · exact createdNids_nodup

theorem init_grown : Grown init.2 0 where
  next := by decide +kernel
  nids := by simp
  parents := by decide +kernel

end FolderTable

end Pst
end Imap2Pst
