import Imap2Pst.Pipeline.Run
import Imap2Pst.Pst.Folders
import Imap2Pst.Std.Rows
import Mathlib.Data.Finset.Card

/-!
# Pipeline.FolderMap

`folder_for` walks a path and remembers every folder on the way under one string, the names
joined by the octet 0x1F.

* `writerOps`       — a writer over the folders of `PstWriter`; whatever else it does is a parameter.
* `Separable`       — no two paths to be walked are joined to one string, and the folders fit.
* `Mapped`          — what `by_path` says of the folders made so far.
* `folderFor_walks` — a walk never fails, and keeps the map right.
-/

namespace Imap2Pst
namespace Pipeline

open CxxStd Pst Pst.FolderTable

variable {R : Type}

/-! ## The writer -/

/-- What `PstWriter` does besides keeping its folders, which none of it can change. -/
structure RestOps (R : Type) where
  create : (path : Bytes) → Except String R
  /-- The contents table of a new folder. -/
  openContents : R → FolderId → R
  /-- The message and its row, in a folder that is there. -/
  addMessage : R → FolderId → Message → Except String Unit × R
  finish : R → FolderTable → Except String Unit × R

def writerOps (rest : RestOps R) : WriterOps (FolderTable × R) where
  create path :=
    match rest.create path with
    | .error what => .error what
    | .ok r => .ok (init.2, (init.2.folders.map Folder.nid).foldl rest.openContents r)
  ipmSubtree := Pst.FolderTable.ipmSubtree
  createFolder := fun (t, r) parent name =>
    match t.createFolder parent name with
    | (.error what, t) => (.error what, t, r)
    | (.ok id, t) => (.ok id, t, rest.openContents r id)
  addMessage := fun (t, r) id msg =>
    match t.folder? id with
    | none => (.error ("unknown folder id " ++ toString id), t, r)
    | some _ =>
      match rest.addMessage r id msg with
      | (.error what, r) => (.error what, t, r)
      | (.ok (), r) => (.ok (), t.countMessage id msg.seen, r)
  finish := fun (t, r) =>
    let (done, r) := rest.finish r t
    (done, t, r)

/-! ## Paths and keys -/

def joinKey (pre part : Bytes) : Bytes := (if pre = [] then pre else pre ++ [0x1f]) ++ part

/-- The string `folder_for` remembers the folder at the end of `path` under. -/
def pathKey (path : List Bytes) : Bytes := path.foldl joinKey []

theorem pathKey_append (path : List Bytes) (part : Bytes) :
    pathKey (path ++ [part]) = joinKey (pathKey path) part := by
  simp [pathKey]

/-- The paths `folder_for` walks for `folders`, each with those on the way to it. -/
def levels (folders : List FolderInfo) : List (List Bytes) :=
  folders.flatMap fun f => f.path.inits.filter (· ≠ [])

theorem mem_levels {folders : List FolderInfo} {p : List Bytes} :
    p ∈ levels folders ↔ ∃ f ∈ folders, p <+: f.path ∧ p ≠ [] := by
  simp [levels]

/-- The paths have keys of their own, the index of a NID can number them, and whatever holds
messages has a name. -/
structure Separable (folders : List FolderInfo) : Prop where
  keys : ∀ p ∈ levels folders, ∀ q ∈ levels folders, pathKey p = pathKey q → p = q
  room : (levels folders).toFinset.card ≤ kFreeFolderIndexes
  named : ∀ f ∈ folders, f.selectable → f.path ≠ []

theorem levels_perm {folders folders' : List FolderInfo} (h : folders.Perm folders')
    {p : List Bytes} : p ∈ levels folders ↔ p ∈ levels folders' := by
  simp only [mem_levels, h.mem_iff]

theorem Separable.perm {folders folders' : List FolderInfo} (h : folders.Perm folders')
    (hs : Separable folders) : Separable folders' where
  keys p hp q hq := hs.keys p ((levels_perm h).2 hp) q ((levels_perm h).2 hq)
  room := by
    have hset : (levels folders').toFinset = (levels folders).toFinset := by
      ext p
      simp only [List.mem_toFinset, levels_perm h]
    rw [hset]
    exact hs.room
  named f hf := hs.named f (h.mem_iff.2 hf)

/-! ## The map of the folders made so far -/

/-- `by_path` knows the folders of the table: they were made for the paths `made`, in order. -/
structure Mapped (folders : List FolderInfo) (t : FolderTable) (byPath : List (Bytes × FolderId))
    (made : List (List Bytes)) : Prop where
  grown : Grown t made.length
  known : ∀ key id, byPath.lookup key = some id ↔
    ∃ i p, made[i]? = some p ∧ pathKey p = key ∧ id = createdNid i
  nodup : (made.map pathKey).Nodup
  inside : ∀ p ∈ made, p ∈ levels folders
  below : Separable folders → ∀ i p, made[i]? = some p →
    Below t Pst.FolderTable.ipmSubtree (createdNid i) p

/-- What a map knows, another one knows as well. -/
def Keeps (byPath byPath' : List (Bytes × FolderId)) : Prop :=
  ∀ key id, byPath.lookup key = some id → byPath'.lookup key = some id

/-- A folder that can be a parent. -/
def Known (n : Nat) (id : FolderId) : Prop :=
  id = Pst.FolderTable.ipmSubtree ∨ ∃ i < n, id = createdNid i

theorem Known.mem {t : FolderTable} {n : Nat} {id : FolderId} (h : Known n id) (ht : Grown t n) :
    id ≠ 0 ∧ id ∈ t.folders.map Folder.nid := by
  rw [ht.nids, List.mem_append]
  obtain rfl | ⟨i, hi, rfl⟩ := h
  · exact ⟨by rw [ipmSubtree_eq]; decide, .inl (by rw [ipmSubtree_eq, init_nids]; decide)⟩
  · exact ⟨createdNid_ne_zero i, .inr (List.mem_map_of_mem (List.mem_range.2 hi))⟩

theorem Mapped.start (folders : List FolderInfo) : Mapped folders init.2 [] [] where
  grown := init_grown
  known key id := by simp
  nodup := List.nodup_nil
  inside p hp := absurd hp List.not_mem_nil
  below _ i p hp := by simp at hp

/-- Of paths with keys of their own there are at most as many as there are levels. -/
theorem Mapped.length_le {folders : List FolderInfo} {made : List (List Bytes)}
    (hnodup : (made.map pathKey).Nodup) (hinside : ∀ p ∈ made, p ∈ levels folders) :
    made.length ≤ (levels folders).toFinset.card := by
  rw [← List.toFinset_card_of_nodup hnodup.of_map]
  exact Finset.card_le_card fun p hp => List.mem_toFinset.2 (hinside p (List.mem_toFinset.1 hp))

/-- A name that `by_path` does not know below `parent`: a folder is made. -/
theorem Mapped.create {folders : List FolderInfo} {t : FolderTable}
    {byPath : List (Bytes × FolderId)} {made : List (List Bytes)}
    (h : Mapped folders t byPath made) {parent : FolderId} (hparent : Known made.length parent)
    {path : List Bytes} {name : Bytes} (hlevel : path ++ [name] ∈ levels folders)
    (hbelow : Separable folders → Below t Pst.FolderTable.ipmSubtree parent path)
    (hnew : byPath.lookup (pathKey (path ++ [name])) = none) :
    ∃ t', t.createFolder parent name = (.ok (createdNid made.length), t') ∧ Extends t t' ∧
      Mapped folders t' ((pathKey (path ++ [name]), createdNid made.length) :: byPath)
        (made ++ [path ++ [name]]) := by
  obtain ⟨hzero, hmem⟩ := hparent.mem h.grown
  obtain ⟨t', hmake, hnext, hnids, hparents, hext, hchild⟩ := createFolder_new hzero hmem name
  have hnid : makeNid kNidTypeNormalFolder t.nextFolderIndex = createdNid made.length := by
    rw [h.grown.next, createdNid, makeNid_eq (by decide), makeNid_eq (by decide),
      Nat.mod_mod_of_dvd _ (by decide)]
  rw [hnid] at hmake hnids hchild
  have hfresh : pathKey (path ++ [name]) ∉ made.map pathKey := by
    intro hin
    obtain ⟨p, hp, hkey⟩ := List.mem_map.1 hin
    obtain ⟨i, hi⟩ := List.mem_iff_getElem?.1 hp
    rw [(h.known _ _).2 ⟨i, p, hi, hkey, rfl⟩] at hnew
    cases hnew
  have hnodup : ((made ++ [path ++ [name]]).map pathKey).Nodup := by
    rw [List.map_append, List.map_singleton]
    exact List.perm_append_comm.nodup_iff.1 (List.nodup_cons.2 ⟨hfresh, h.nodup⟩)
  have hinside : ∀ p ∈ made ++ [path ++ [name]], p ∈ levels folders := by
    intro p hp
    rcases List.mem_append.1 hp with hp | hp
    · exact h.inside p hp
    · rwa [List.mem_singleton.1 hp]
  refine ⟨t', hmake, hext, ?_, ?_, hnodup, hinside, ?_⟩
  · constructor
    · rw [hnext, h.grown.next, List.length_append, List.length_singleton, Nat.mod_add_mod]
      rfl
    · rw [hnids, h.grown.nids, List.length_append, List.length_singleton, List.range_succ,
        List.map_append, List.append_assoc]
      rfl
    · intro id hid
      rw [hparents, List.drop_append_of_le_length ?_] at hid
      · rw [List.length_append, List.length_singleton]
        rcases List.mem_append.1 hid with hid | hid
        · exact (h.grown.parents id hid).imp_right fun ⟨i, hi, heq⟩ => ⟨i, by omega, heq⟩
        · rw [List.mem_singleton.1 hid]
          exact hparent.imp_right fun ⟨i, hi, heq⟩ => ⟨i, by omega, heq⟩
      · have hlen := congrArg List.length h.grown.nids
        rw [init_nids] at hlen
        simp only [List.length_map, List.length_append, List.length_cons, List.length_nil] at hlen
        rw [List.length_map, kBuiltinFolderCount]
        omega
  · intro key id
    rw [List.lookup_cons]
    by_cases hkey : key = pathKey (path ++ [name])
    · subst hkey
      simp only [beq_self_eq_true, Option.some.injEq]
      constructor
      · rintro rfl
        exact ⟨made.length, _, by simp, rfl, rfl⟩
      · rintro ⟨i, p, hi, hkey, rfl⟩
        rcases getElem?_concat.1 hi with hi | ⟨rfl, rfl⟩
        · exact absurd (List.mem_map.2 ⟨p, List.mem_of_getElem? hi, hkey⟩) hfresh
        · rfl
    · rw [beq_eq_false_iff_ne.2 hkey]
      simp only [h.known]
      constructor
      · rintro ⟨i, p, hi, hp, rfl⟩
        exact ⟨i, p, getElem?_concat.2 (.inl hi), hp, rfl⟩
      · rintro ⟨i, p, hi, hp, rfl⟩
        rcases getElem?_concat.1 hi with hi | ⟨-, rfl⟩
        · exact ⟨i, p, hi, hp, rfl⟩
        · exact absurd hp.symm hkey
  · intro hs i p hi
    rcases getElem?_concat.1 hi with hi | ⟨rfl, rfl⟩
    · exact (h.below hs i p hi).extends hext
    · refine hchild ?_ (hbelow hs)
      have hroom := (Mapped.length_le hnodup hinside).trans hs.room
      rw [List.length_append, List.length_singleton] at hroom
      rw [h.grown.nids]
      exact createdNid_fresh hroom

theorem Keeps.refl (byPath : List (Bytes × FolderId)) : Keeps byPath byPath := fun _ _ h => h

theorem Keeps.trans {byPath mid byPath' : List (Bytes × FolderId)} (h : Keeps byPath mid)
    (h' : Keeps mid byPath') : Keeps byPath byPath' :=
  fun key id hid => h' key id (h key id hid)

theorem Keeps.cons {byPath : List (Bytes × FolderId)} {key : Bytes}
    (h : byPath.lookup key = none) (id : FolderId) : Keeps byPath ((key, id) :: byPath) := by
  intro key' id' hid
  rw [List.lookup_cons]
  split
  · rename_i heq
    rw [beq_iff_eq.1 heq, h] at hid
    cases hid
  · exact hid

/-- After `walked`, the rest of a path has been walked, and ended at `id`. -/
structure Walked (folders : List FolderInfo) (walked parts : List Bytes) (parent id : FolderId)
    (t : FolderTable) (byPath : List (Bytes × FolderId)) : Prop where
  mapped : ∃ made, Mapped folders t byPath made
  way : ∀ p, p <+: parts → p ≠ [] → ∃ i, byPath.lookup (pathKey (walked ++ p)) = some i
  stays : parts = [] → id = parent
  ends : parts ≠ [] → byPath.lookup (pathKey (walked ++ parts)) = some id

theorem Walked.cons {folders : List FolderInfo} {walked parts : List Bytes} {part : Bytes}
    {parent id id' : FolderId} {t : FolderTable} {byPath : List (Bytes × FolderId)}
    (h : Walked folders (walked ++ [part]) parts id id' t byPath)
    (hid : byPath.lookup (pathKey (walked ++ [part])) = some id) :
    Walked folders walked (part :: parts) parent id' t byPath where
  mapped := h.mapped
  way p hp hne := by
    cases p with
    | nil => exact absurd rfl hne
    | cons a p =>
      obtain ⟨rfl, hrest⟩ := List.cons_prefix_cons.1 hp
      by_cases hp0 : p = []
      · exact ⟨id, hp0 ▸ hid⟩
      · simpa using h.way p hrest hp0
  stays h := by cases h
  ends _ := by
    by_cases hparts : parts = []
    · rw [h.stays hparts, hparts]
      exact hid
    · simpa using h.ends hparts

/-- `folder_for` never fails, and `by_path` knows every folder on the way afterwards. -/
theorem folderFor_walks (rest : RestOps R) (folders : List FolderInfo) :
    ∀ (parts walked : List Bytes) (parent : FolderId) (t : FolderTable) (r : R)
      (byPath : List (Bytes × FolderId)) (made : List (List Bytes)),
      Mapped folders t byPath made → Known made.length parent →
      (∀ p, p <+: walked ++ parts → p ≠ [] → p ∈ levels folders) →
      (Separable folders → Below t Pst.FolderTable.ipmSubtree parent walked) →
      ∃ id t' r' byPath',
        folderFor (writerOps rest) (pathKey walked) parent parts ((t, r), byPath) =
          (.ok id, (t', r'), byPath') ∧
        Walked folders walked parts parent id t' byPath' ∧ Keeps byPath byPath' := by
  intro parts
  induction parts with
  | nil =>
    intro walked parent t r byPath made h _ _ _
    refine ⟨parent, t, r, byPath, rfl, ⟨⟨made, h⟩, ?_, fun _ => rfl, fun hne => absurd rfl hne⟩,
      .refl byPath⟩
    intro p hp hne
    exact absurd (List.prefix_nil.1 hp) hne
  | cons part parts ih =>
    intro walked parent t r byPath made h hparent hlevels hbelow
    have hlevel : walked ++ [part] ∈ levels folders := hlevels _ ⟨parts, by simp⟩ (by simp)
    -- how the walk goes on from the folder of this name
    have go : ∀ (id : FolderId) (t' : FolderTable) (r' : R) (byPath' : List (Bytes × FolderId))
        (made' : List (List Bytes)), Mapped folders t' byPath' made' → Keeps byPath byPath' →
        byPath'.lookup (pathKey (walked ++ [part])) = some id →
        ∃ id' t'' r'' byPath'',
          folderFor (writerOps rest) (pathKey (walked ++ [part])) id parts ((t', r'), byPath') =
            (.ok id', (t'', r''), byPath'') ∧
          Walked folders walked (part :: parts) parent id' t'' byPath'' ∧
          Keeps byPath byPath'' := by
      intro id t' r' byPath' made' h' hkeeps hid
      obtain ⟨i, p, hi, hkey, rfl⟩ := (h'.known _ _).1 hid
      have hbelow' (hs : Separable folders) :
          Below t' Pst.FolderTable.ipmSubtree (createdNid i) (walked ++ [part]) := by
        rw [← hs.keys p (h'.inside p (List.mem_of_getElem? hi)) _ hlevel hkey]
        exact h'.below hs i p hi
      obtain ⟨id', t'', r'', byPath'', hrun, hwalked, hkeeps'⟩ :=
        ih (walked ++ [part]) (createdNid i) t' r' byPath' made' h'
          (.inr ⟨i, (List.getElem?_eq_some_iff.1 hi).1, rfl⟩)
          (fun p hp => hlevels p (by simpa using hp)) hbelow'
      exact ⟨id', t'', r'', byPath'', hrun, hwalked.cons (hkeeps' _ _ hid), hkeeps.trans hkeeps'⟩
    rw [pathKey_append] at go
    cases hlookup : byPath.lookup (joinKey (pathKey walked) part) with
    | some id =>
      obtain ⟨id', t', r', byPath', hrun, hdone⟩ := go id t r byPath made h (.refl byPath) hlookup
      refine ⟨id', t', r', byPath', ?_, hdone⟩
      rw [joinKey] at hlookup
      simp only [folderFor, hlookup]
      exact hrun
    | none =>
      rw [← pathKey_append] at hlookup go
      obtain ⟨t', hmake, -, hmapped⟩ := h.create hparent hlevel hbelow hlookup
      obtain ⟨id', t'', r'', byPath'', hrun, hdone⟩ := go (createdNid made.length) t'
        (rest.openContents r (createdNid made.length)) _ _ hmapped (.cons hlookup _) (by simp)
      refine ⟨id', t'', r'', byPath'', ?_, hdone⟩
      rw [pathKey_append] at hlookup hrun
      rw [joinKey] at hlookup
      simp only [folderFor, hlookup, writerOps, hmake]
      exact hrun

/-! ## The octet 0x1F in a name -/

theorem joinKey_foldl (path : List Bytes) :
    ∀ pre : Bytes, pre ≠ [] → (∀ part ∈ path, part ≠ []) →
      path.foldl joinKey pre = [0x1f].intercalate (pre :: path) := by
  induction path with
  | nil => simp [List.intercalate]
  | cons part path ih =>
    intro pre hpre hparts
    have hjoin : joinKey pre part ≠ [] := by simp [joinKey, hpre]
    rw [List.foldl_cons, ih _ hjoin fun p hp => hparts p (List.mem_cons_of_mem _ hp), joinKey,
      if_neg hpre]
    cases path <;> simp [List.intercalate]

/-- Names without the octet keep their paths apart. -/
theorem pathKey_inj {p q : List Bytes} (hp : ∀ part ∈ p, part ≠ [] ∧ 0x1f ∉ part)
    (hq : ∀ part ∈ q, part ≠ [] ∧ 0x1f ∉ part) (h : pathKey p = pathKey q) : p = q := by
  have key : ∀ path : List Bytes, (∀ part ∈ path, part ≠ [] ∧ 0x1f ∉ part) →
      pathKey path = [0x1f].intercalate path := by
    intro path hparts
    cases path with
    | nil => rfl
    | cons part path =>
      have hpart := (hparts part List.mem_cons_self).1
      rw [pathKey, List.foldl_cons, joinKey, if_pos rfl, List.nil_append]
      exact joinKey_foldl path part hpart fun p hp => (hparts p (List.mem_cons_of_mem _ hp)).1
  rw [key p hp, key q hq] at h
  have hnil : ∀ path : List Bytes, (∀ part ∈ path, part ≠ [] ∧ 0x1f ∉ part) →
      ([0x1f].intercalate path = [] ↔ path = []) := by
    intro path hparts
    rcases path with _ | ⟨part, _ | ⟨part', path⟩⟩
    · simp [List.intercalate]
    · simpa [List.intercalate] using (hparts part List.mem_cons_self).1
    · simp [List.intercalate]
  by_cases hempty : p = []
  · rw [(hnil p hp).2 hempty] at h
    rw [hempty, (hnil q hq).1 h.symm]
  · have hempty' : q ≠ [] := fun h0 => hempty ((hnil p hp).1 (h.trans ((hnil q hq).2 h0)))
    rw [← List.splitOn_intercalate 0x1f (fun part hpart => (hp part hpart).2) hempty, h,
      List.splitOn_intercalate 0x1f (fun part hpart => (hq part hpart).2) hempty']

theorem splitOn_parts (delimiter : Byte) :
    ∀ (name cur : Bytes), ∀ part ∈ FolderInfo.splitOn delimiter cur name,
      part ≠ [] ∧ part ⊆ cur ++ name := by
  intro name
  induction name with
  | nil =>
    intro cur part hpart
    simp only [FolderInfo.splitOn] at hpart
    split at hpart
    · cases hpart
    · rename_i hne
      rw [List.mem_singleton.1 hpart]
      exact ⟨hne, List.subset_append_left _ _⟩
  | cons c name ih =>
    intro cur part hpart
    have later : part ∈ FolderInfo.splitOn delimiter [] name →
        part ≠ [] ∧ part ⊆ cur ++ c :: name := by
      intro h
      obtain ⟨hne, hsub⟩ := ih [] part h
      exact ⟨hne, fun b hb => by simpa using .inr (.inr (hsub hb))⟩
    simp only [FolderInfo.splitOn] at hpart
    split at hpart
    · split at hpart
      · exact later hpart
      · rename_i hcur
        rcases List.mem_cons.1 hpart with rfl | hpart
        · exact ⟨hcur, List.subset_append_left _ _⟩
        · exact later hpart
    · obtain ⟨hne, hsub⟩ := ih (cur ++ [c]) part hpart
      exact ⟨hne, by simpa using hsub⟩

theorem path_parts {f : FolderInfo} {part : Bytes} (h : part ∈ f.path) :
    part ≠ [] ∧ part ⊆ f.fullName := by
  simp only [FolderInfo.path] at h
  split at h
  · split at h
    · cases h
    · rename_i hne
      rw [List.mem_singleton.1 h]
      exact ⟨hne, List.Subset.refl _⟩
  · simpa using splitOn_parts f.delimiter f.fullName [] part h

/-- Folders whose names are free of the octet are separable, as far as they fit and are named. -/
theorem Separable.of_names {folders : List FolderInfo} (h : ∀ f ∈ folders, 0x1f ∉ f.fullName)
    (room : (levels folders).toFinset.card ≤ kFreeFolderIndexes)
    (named : ∀ f ∈ folders, f.selectable → f.path ≠ []) : Separable folders where
  keys p hp q hq hkey := by
    have hparts : ∀ p ∈ levels folders, ∀ part ∈ p, part ≠ [] ∧ 0x1f ∉ part := by
      intro p hp part hpart
      obtain ⟨f, hf, hpre, -⟩ := mem_levels.1 hp
      obtain ⟨hne, hsub⟩ := path_parts (hpre.subset hpart)
      exact ⟨hne, fun hin => h f hf (hsub hin)⟩
    exact pathKey_inj (hparts p hp) (hparts q hq) hkey
  room := room
  named := named

end Pipeline
end Imap2Pst
