import Imap2Pst.Pst.Heap
import Imap2Pst.Std.Index

/-!
# Pst.Bth

The B-tree on a heap, translated from `pst/heap.h`. `buildBthInto` works on any heap, given by its
`alloc`; both heaps of the program use it.

* `bthLookup` — the search a reader makes from the HID of the BTHHEADER.
* `PageRule`, `buildBth_rule` — what holds of every page holds of the root over all records.
* `buildBth_spec` — it finds each record under its key, and nothing else.
* `buildBthInto_simulates` — heaps in step stay in step while a tree is built into them.
-/

namespace Imap2Pst
namespace Pst

open CxxStd

structure BthRecord where
  key : Bytes
  value : Bytes
  deriving DecidableEq, Repr

/-- The key as the comparator of the sort computes it, in 64 bits. -/
def BthRecord.order (r : BthRecord) : Nat := fromLe r.key % wordSize

section

variable {σ : Type} (std : StdSort) (alloc : Bytes → EStateM PstError σ Nat)

def leafRow (cbKey cbEnt : Nat) (r : BthRecord) : Bytes := r.key.take cbKey ++ r.value.take cbEnt

def branchRow (cbKey : Nat) (e : Bytes × Nat) : Bytes := e.1.take cbKey ++ le 4 e.2

/-- Records of `size` octets that an allocation holds. -/
def recordsPerPage (size : Nat) : Nat := max 1 (maxAllocSize / size)

/-- The index levels over `level`, and their number; `left` more may be built. -/
def growBth (cbKey : Nat) : Nat → List (Bytes × Nat) → EStateM PstError σ (Nat × List (Bytes × Nat))
  | left, level =>
    if level.length ≤ 1 then pure (8 - left, level)
    else do
      let next ← each
        (fun piece => do
          let hid ← alloc (piece.flatMap (branchRow cbKey))
          pure ((piece.headD ([], 0)).1, hid))
        (pieces (recordsPerPage (cbKey + 4)) level)
      match left with
      | 0 => throw ⟨"BTH grew beyond 8 index levels"⟩
      | left + 1 => growBth cbKey left next

/-- BTHHEADER. -/
def bthHeader (cbKey cbEnt levels root : Nat) : Bytes :=
  [kHnSigBTH, cbKey.toUInt8, cbEnt.toUInt8, levels.toUInt8] ++ le 4 root

def buildBthInto (cbKey cbEnt : Nat) (records : List BthRecord) : EStateM PstError σ Nat := do
  let records := std.sort (byKey BthRecord.order) records
  if records = [] then alloc (bthHeader cbKey cbEnt 0 0)
  else
    let level ← each
      (fun piece => do
        let hid ← alloc (piece.flatMap (leafRow cbKey cbEnt))
        pure ((piece.headD ⟨[], []⟩).key, hid))
      (pieces (recordsPerPage (cbKey + cbEnt)) records)
    let (levels, roots) ← growBth alloc cbKey 8 level
    alloc (bthHeader cbKey cbEnt levels (roots.headD ([], 0)).2)

end

def buildBth (std : StdSort) (cbKey cbEnt : Nat) (records : List BthRecord) :
    EStateM PstError HeapNode Nat := buildBthInto std HeapNode.alloc cbKey cbEnt records

/-! ## The reader -/

section

variable (item : Nat → Option Bytes) (cbKey cbEnt : Nat)

/-- The search below an allocation with `levels` index levels under it. -/
def bthSearch : Nat → Nat → Nat → Option Bytes
  | 0, hid, k => do
    let page ← item hid
    let row ← (pieces (cbKey + cbEnt) page).find? fun row => fromLe (row.take cbKey) = k
    pure (row.drop cbKey)
  | levels + 1, hid, k => do
    let page ← item hid
    let row ← floorEntry (fun row : Bytes => fromLe (row.take cbKey)) (pieces (cbKey + 4) page) k
    bthSearch levels (fromLe (row.drop cbKey)) k

end

/-- The value under a key, from the HID of the BTHHEADER. -/
def bthLookup (item : Nat → Option Bytes) (hid k : Nat) : Option Bytes := do
  let header ← item hid
  let root := fromLe (slice header 4 4)
  if header.getD 0 0 = kHnSigBTH ∧ root ≠ 0 then
    bthSearch item (header.getD 1 0).toNat (header.getD 2 0).toNat (header.getD 3 0).toNat root k
  else none

/-! ## Both heaps -/

theorem buildBthInto_simulates {σ τ : Type} {rel : σ → τ → Prop} (std : StdSort)
    {alloc : Bytes → EStateM PstError σ Nat} {alloc' : Bytes → EStateM PstError τ Nat}
    (h : ∀ data, Simulates rel (alloc data) (alloc' data)) (cbKey cbEnt : Nat)
    (records : List BthRecord) :
    Simulates rel (buildBthInto std alloc cbKey cbEnt records)
      (buildBthInto std alloc' cbKey cbEnt records) := by
  have hgrow (left : Nat) (level : List (Bytes × Nat)) :
      Simulates rel (growBth alloc cbKey left level) (growBth alloc' cbKey left level) := by
    induction left generalizing level with
    | zero =>
      unfold growBth
      refine simulates_ite (fun _ => simulates_pure _) fun _ => ?_
      refine simulates_bind (simulates_each fun piece _ => ?_) fun next => simulates_throw _ _
      exact simulates_bind (h _) fun hid => simulates_pure _
    | succ left ih =>
      unfold growBth
      refine simulates_ite (fun _ => simulates_pure _) fun _ => ?_
      refine simulates_bind (simulates_each fun piece _ => ?_) fun next => ih next
      exact simulates_bind (h _) fun hid => simulates_pure _
  unfold buildBthInto
  refine simulates_ite (fun _ => h _) fun _ => ?_
  refine simulates_bind (simulates_each fun piece _ => ?_) fun level => ?_
  · exact simulates_bind (h _) fun hid => simulates_pure _
  · exact simulates_bind (hgrow 8 level) fun roots => h _

/-- What every allocation does, building a tree does. -/
theorem buildBthInto_moves {σ : Type} {R : σ → σ → Prop} [IsPreorder σ R] (std : StdSort)
    {alloc : Bytes → EStateM PstError σ Nat} (h : ∀ data, Moves R (alloc data))
    (cbKey cbEnt : Nat) (records : List BthRecord) :
    Moves R (buildBthInto std alloc cbKey cbEnt records) := by
  have hgrow (left : Nat) (level : List (Bytes × Nat)) :
      Moves R (growBth alloc cbKey left level) := by
    induction left generalizing level with
    | zero =>
      unfold growBth
      refine moves_ite (fun _ => moves_pure _) fun _ => ?_
      refine moves_bind (moves_each fun piece _ => ?_) fun next => moves_throw _
      exact moves_bind (h _) fun hid => moves_pure _
    | succ left ih =>
      unfold growBth
      refine moves_ite (fun _ => moves_pure _) fun _ => ?_
      refine moves_bind (moves_each fun piece _ => ?_) fun next => ih next
      exact moves_bind (h _) fun hid => moves_pure _
  unfold buildBthInto
  refine moves_ite (fun _ => h _) fun _ => ?_
  refine moves_bind (moves_each fun piece _ => ?_) fun level => ?_
  · exact moves_bind (h _) fun hid => moves_pure _
  · exact moves_bind (hgrow 8 level) fun roots => h _

/-! ## What is built is found -/

section

variable {cbKey cbEnt : Nat}

/-- A record of the sizes the tree is built with. -/
structure BthRecord.Fits (cbKey cbEnt : Nat) (r : BthRecord) : Prop where
  key : r.key.length = cbKey
  value : r.value.length = cbEnt

def BthRecord.num (r : BthRecord) : Nat := fromLe r.key

def Ascending (records : List BthRecord) : Prop := records.Pairwise fun a b => a.num < b.num

/-- What is said of an entry and the records below it, on a heap: true of a leaf page and of a page
of entries it is true of, and still true when the heap has grown. -/
structure PageRule (cbKey cbEnt : Nat)
    (P : HeapNode → Nat → (Bytes × Nat) × List BthRecord → Prop) : Prop where
  mono : ∀ {h h' levels e}, P h levels e → h.Grows h' → P h' levels e
  leaf : ∀ {h : HeapNode} {hid : Nat} {records : List BthRecord}, h.Ok →
    HasItem h.blocks hid (records.flatMap (leafRow cbKey cbEnt)) →
    (records.flatMap (leafRow cbKey cbEnt)).length ≤ maxAllocSize → records ≠ [] →
    (∀ r ∈ records, r.Fits cbKey cbEnt) → P h 0 (((records.headD ⟨[], []⟩).key, hid), records)
  branch : ∀ {h : HeapNode} {hid levels : Nat} {ps : List ((Bytes × Nat) × List BthRecord)}, h.Ok →
    HasItem h.blocks hid ((ps.map Prod.fst).flatMap (branchRow cbKey)) →
    ((ps.map Prod.fst).flatMap (branchRow cbKey)).length ≤ maxAllocSize → ps ≠ [] →
    (∀ p ∈ ps, P h levels p) →
    P h (levels + 1) ((((ps.map Prod.fst).headD ([], 0)).1, hid), ps.flatMap Prod.snd)

section

variable {P : HeapNode → Nat → (Bytes × Nat) × List BthRecord → Prop}

/-- A loop that allocates a page for each piece makes a level with an entry for each. -/
theorem level_of_pages {α : Type} {n : Nat} {l : List α} (levels : Nat) (page : List α → Bytes)
    (first : List α → Bytes) (share : List α → List BthRecord) {h h' : HeapNode}
    {next : List (Bytes × Nat)} (hrule : PageRule cbKey cbEnt P) (hok : h.Ok)
    (hpage : ∀ piece ∈ pieces n l, ∀ h₂ hid, h.Grows h₂ → HasItem h₂.blocks hid (page piece) →
      (page piece).length ≤ maxAllocSize → P h₂ levels ((first piece, hid), share piece))
    (hrun : each
      (fun piece => do
        let hid ← HeapNode.alloc (page piece)
        pure (first piece, hid)) (pieces n l) h = .ok next h') :
    h.Grows h' ∧ ∃ ps : List ((Bytes × Nat) × List BthRecord), next = ps.map Prod.fst ∧
      ps.map Prod.snd = (pieces n l).map share ∧ ∀ p ∈ ps, P h' levels p := by
  refine each_rule
    (I := fun done results h₁ => h.Grows h₁ ∧
      ∃ ps : List ((Bytes × Nat) × List BthRecord), results = ps.map Prod.fst ∧
        ps.map Prod.snd = done.map share ∧ ∀ p ∈ ps, P h₁ levels p) ?_
    ⟨HeapNode.Grows.refl hok, [], by simp⟩ hrun
  rintro done results piece h₁ e h₂ hmem ⟨hg, ps, rfl, hshares, hps⟩ hone
  obtain ⟨hid, h₃, halloc, hpure⟩ := bind_eq_ok.1 hone
  obtain ⟨rfl, rfl⟩ := pure_eq_ok.1 hpure
  obtain ⟨hg', hitem, hlen⟩ := HeapNode.alloc_spec halloc hg.ok
  refine ⟨hg.trans hg', ps ++ [((first piece, hid), share piece)], by simp, by simp [hshares], ?_⟩
  intro p hp
  rcases List.mem_append.1 hp with hp | hp
  · exact hrule.mono (hps p hp) hg'
  · rw [List.mem_singleton.1 hp]
    exact hpage piece hmem h₃ hid (hg.trans hg') hitem hlen

theorem recordsPerPage_pos (size : Nat) : 0 < recordsPerPage size :=
  Nat.lt_of_lt_of_le Nat.one_pos (Nat.le_max_left _ _)

theorem pieces_ne_nil {α : Type} {n : Nat} {l : List α} (hn : 0 < n) (hsome : l ≠ []) :
    pieces n l ≠ [] := by
  rw [pieces_eq_cons hn hsome]
  exact List.cons_ne_nil _ _

/-- One index level more. -/
theorem branch_level {n levels : Nat} {ps : List ((Bytes × Nat) × List BthRecord)}
    {h h' : HeapNode} {next : List (Bytes × Nat)} (hrule : PageRule cbKey cbEnt P) (hn : 0 < n)
    (hok : h.Ok) (hsome : ps ≠ []) (hps : ∀ p ∈ ps, P h levels p)
    (hrun : each
      (fun piece => do
        let hid ← HeapNode.alloc (piece.flatMap (branchRow cbKey))
        pure ((piece.headD ([], 0)).1, hid)) (pieces n (ps.map Prod.fst)) h = .ok next h') :
    h.Grows h' ∧ ∃ qs : List ((Bytes × Nat) × List BthRecord), next = qs.map Prod.fst ∧
      qs ≠ [] ∧ qs.flatMap Prod.snd = ps.flatMap Prod.snd ∧
      ∀ q ∈ qs, P h' (levels + 1) q := by
  rw [pieces_map, each_map] at hrun
  obtain ⟨hg, qs, rfl, hshares, hqs⟩ := level_of_pages (levels + 1)
    (fun piece => (piece.map Prod.fst).flatMap (branchRow cbKey))
    (fun piece => ((piece.map Prod.fst).headD ([], 0)).1) (fun piece => piece.flatMap Prod.snd)
    hrule hok (by
      intro piece hpiece h₂ hid hg hitem hlen
      have hne := List.length_pos_iff.1 (length_of_mem_pieces hn hpiece).1
      exact hrule.branch hg.ok hitem hlen hne fun p hp =>
        hrule.mono (hps p (mem_of_mem_pieces hn hpiece hp)) hg) hrun
  refine ⟨hg, qs, rfl, ?_, ?_, hqs⟩
  · rintro rfl
    exact pieces_ne_nil hn hsome (List.map_eq_nil_iff.1 hshares.symm)
  · rw [List.flatMap_def, hshares, ← List.flatMap_def, flatMap_pieces hn]

theorem level_root {h : HeapNode} {levels : Nat} {ps : List ((Bytes × Nat) × List BthRecord)}
    (hsome : ps ≠ []) (hone : (ps.map Prod.fst).length ≤ 1) (hps : ∀ p ∈ ps, P h levels p) :
    ∃ p, ps.map Prod.fst = [p.1] ∧ p.2 = ps.flatMap Prod.snd ∧ P h levels p := by
  obtain ⟨p, rest, rfl⟩ := List.exists_cons_of_ne_nil hsome
  have hrest : rest = [] := by simpa using hone
  subst hrest
  exact ⟨p, rfl, by simp, hps p List.mem_cons_self⟩

/-- The levels over `ps` end in one root, over all their records. -/
theorem growBth_spec {left levels : Nat} {ps : List ((Bytes × Nat) × List BthRecord)}
    {h h' : HeapNode} {roots : List (Bytes × Nat)}
    (hrun : growBth HeapNode.alloc cbKey left (ps.map Prod.fst) h = .ok (levels, roots) h')
    (hrule : PageRule cbKey cbEnt P) (hok : h.Ok) (hsome : ps ≠ []) (hleft : left ≤ 8)
    (hps : ∀ p ∈ ps, P h (8 - left) p) :
    h.Grows h' ∧ levels ≤ 8 ∧
      ∃ p, roots = [p.1] ∧ p.2 = ps.flatMap Prod.snd ∧ P h' levels p := by
  induction left generalizing ps h with
  | zero =>
    unfold growBth at hrun
    rcases ite_eq_ok.1 hrun with ⟨hone, hrun⟩ | ⟨_, hrun⟩
    · obtain ⟨heq, rfl⟩ := pure_eq_ok.1 hrun
      cases heq
      exact ⟨HeapNode.Grows.refl hok, Nat.sub_le _ _, level_root hsome hone hps⟩
    · obtain ⟨_, _, _, hrun⟩ := bind_eq_ok.1 hrun
      cases hrun
  | succ left ih =>
    unfold growBth at hrun
    rcases ite_eq_ok.1 hrun with ⟨hone, hrun⟩ | ⟨_, hrun⟩
    · obtain ⟨heq, rfl⟩ := pure_eq_ok.1 hrun
      cases heq
      exact ⟨HeapNode.Grows.refl hok, Nat.sub_le _ _, level_root hsome hone hps⟩
    · obtain ⟨next, h₁, hnext, hrun⟩ := bind_eq_ok.1 hrun
      obtain ⟨hg, qs, rfl, hne, hflat, hqs⟩ :=
        branch_level hrule (recordsPerPage_pos _) hok hsome hps hnext
      have hlevel : 8 - (left + 1) + 1 = 8 - left := by omega
      rw [hlevel] at hqs
      obtain ⟨hg', hlevels, p, hroots, hp, hroot⟩ := ih hrun hg.ok hne (by omega) hqs
      exact ⟨hg.trans hg', hlevels, p, hroots, hp.trans hflat, hroot⟩

/-- The tree that is built: a header without a root, or a root over all records. -/
theorem buildBth_rule {std : StdSort} {records : List BthRecord} {h h' : HeapNode} {hid : Nat}
    (hrun : buildBth std cbKey cbEnt records h = .ok hid h') (hrule : PageRule cbKey cbEnt P)
    (hok : h.Ok) (hfits : ∀ r ∈ records, r.Fits cbKey cbEnt) :
    h.Grows h' ∧ ∃ levels root, HasItem h'.blocks hid (bthHeader cbKey cbEnt levels root) ∧
      (records = [] ∧ levels = 0 ∧ root = 0 ∨ levels ≤ 8 ∧ ∃ p, p.1.2 = root ∧
        p.2 = std.sort (byKey BthRecord.order) records ∧ P h' levels p) := by
  have hperm := std.perm (byKey BthRecord.order) records
  unfold buildBth buildBthInto at hrun
  rcases ite_eq_ok.1 hrun with ⟨hnone, hrun⟩ | ⟨hsome, hrun⟩
  · obtain ⟨hg, hitem, -⟩ := HeapNode.alloc_spec hrun hok
    have hempty : records = [] := List.Perm.nil_eq (hnone ▸ hperm) |>.symm
    exact ⟨hg, 0, 0, hitem, .inl ⟨hempty, rfl, rfl⟩⟩
  · obtain ⟨level, h₁, hlevel, hrun⟩ := bind_eq_ok.1 hrun
    obtain ⟨hg₁, ps, rfl, hshares, hps⟩ := level_of_pages 0
      (fun piece => piece.flatMap (leafRow cbKey cbEnt)) (fun piece => (piece.headD ⟨[], []⟩).key)
      (fun piece => piece) hrule hok (by
        intro piece hpiece h₂ hid hg hitem hlen
        have hne := List.length_pos_iff.1 (length_of_mem_pieces (recordsPerPage_pos _) hpiece).1
        refine hrule.leaf hg.ok hitem hlen hne fun r hr => ?_
        exact hfits r (std.mem_sort.1 (mem_of_mem_pieces (recordsPerPage_pos _) hpiece hr))) hlevel
    have hflat : ps.flatMap Prod.snd = std.sort (byKey BthRecord.order) records := by
      rw [List.flatMap_def, hshares, List.map_id', pieces_flatten (recordsPerPage_pos _)]
    have hne : ps ≠ [] := by
      rintro rfl
      exact hsome hflat.symm
    obtain ⟨⟨levels, roots⟩, h₂, hgrow, hrun⟩ := bind_eq_ok.1 hrun
    obtain ⟨hg₂, hlevels, p, rfl, hp, hroot⟩ :=
      growBth_spec hgrow hrule hg₁.ok hne (by decide) hps
    obtain ⟨hg₃, hitem, -⟩ := HeapNode.alloc_spec hrun hg₂.ok
    exact ⟨(hg₁.trans hg₂).trans hg₃, levels, p.1.2, hitem,
      .inr ⟨hlevels, p, rfl, hp.trans hflat, hrule.mono hroot hg₃⟩⟩

end

/-! ## The search -/

/-- A search from this entry finds its share of the records. -/
structure Leads (cbKey cbEnt : Nat) (h : HeapNode) (levels : Nat)
    (e : (Bytes × Nat) × List BthRecord) : Prop where
  sep : ∃ r rest, e.2 = r :: rest ∧ e.1.1 = r.key
  key : e.1.1.length = cbKey
  hid : 0 < e.1.2 ∧ e.1.2 < 256 ^ 4
  finds : ∀ item, HeapNode.Finds item h → Ascending e.2 → ∀ k,
    bthSearch item cbKey cbEnt levels e.1.2 k = (e.2.find? fun r => r.num = k).map (·.value)

theorem Leads.mono {h h' : HeapNode} {levels : Nat} {e : (Bytes × Nat) × List BthRecord}
    (he : Leads cbKey cbEnt h levels e) (hg : h.Grows h') : Leads cbKey cbEnt h' levels e :=
  ⟨he.sep, he.key, he.hid, fun item hf => he.finds item (hf.of_grows hg)⟩

theorem find?_rows {α β γ : Type} {l : List α} {row : α → β} {p : β → Bool} {q : α → Bool}
    {g : β → γ} {v : α → γ} (h : ∀ a ∈ l, p (row a) = q a ∧ g (row a) = v a) :
    (((l.map row).find? p).bind fun b => some (g b)) = (l.find? q).map v := by
  induction l with
  | nil => rfl
  | cons a l ih =>
    obtain ⟨hp, hg⟩ := h a List.mem_cons_self
    rw [List.map_cons, List.find?_cons, List.find?_cons, hp]
    cases q a with
    | true => exact congrArg some hg
    | false => exact ih fun b hb => h b (List.mem_cons_of_mem _ hb)

/-- A leaf page. -/
theorem leads_leaf {h : HeapNode} {hid : Nat} {records : List BthRecord}
    (hitem : HasItem h.blocks hid (records.flatMap (leafRow cbKey cbEnt))) (hok : h.Ok)
    (hsome : records ≠ []) (hsize : 0 < cbKey + cbEnt)
    (hfits : ∀ r ∈ records, r.Fits cbKey cbEnt) :
    Leads cbKey cbEnt h 0 (((records.headD ⟨[], []⟩).key, hid), records) := by
  obtain ⟨r, rest, rfl⟩ := List.exists_cons_of_ne_nil hsome
  refine ⟨⟨r, rest, rfl, rfl⟩, (hfits r List.mem_cons_self).key, hok.hid_range hitem,
    fun item hf _ k => ?_⟩
  have hrow (r') (hr' : r' ∈ r :: rest) : leafRow cbKey cbEnt r' = r'.key ++ r'.value := by
    rw [leafRow, List.take_of_length_le (hfits r' hr').key.le,
      List.take_of_length_le (hfits r' hr').value.le]
  have hlen (r') (hr' : r' ∈ r :: rest) : (leafRow cbKey cbEnt r').length = cbKey + cbEnt := by
    rw [hrow r' hr', List.length_append, (hfits r' hr').key, (hfits r' hr').value]
  simp only [bthSearch, hf hid _ hitem, Option.bind_eq_bind, Option.bind_some,
    pieces_flatMap hsize hlen]
  refine find?_rows fun r' hr' => ?_
  rw [hrow r' hr', List.take_left' (hfits r' hr').key, List.drop_left' (hfits r' hr').key]
  exact ⟨rfl, rfl⟩

/-- A page of entries that lead to their shares. -/
theorem leads_branch {h : HeapNode} {hid levels : Nat} {ps : List ((Bytes × Nat) × List BthRecord)}
    (hitem : HasItem h.blocks hid ((ps.map Prod.fst).flatMap (branchRow cbKey))) (hok : h.Ok)
    (hsome : ps ≠ []) (hps : ∀ p ∈ ps, Leads cbKey cbEnt h levels p) :
    Leads cbKey cbEnt h (levels + 1)
      ((((ps.map Prod.fst).headD ([], 0)).1, hid), ps.flatMap Prod.snd) := by
  obtain ⟨p, rest, rfl⟩ := List.exists_cons_of_ne_nil hsome
  have hkeys (q) (hq : q ∈ p :: rest) : q.1.1.length = cbKey := (hps q hq).key
  refine ⟨?_, hkeys p List.mem_cons_self, hok.hid_range hitem, fun item hf hsorted k => ?_⟩
  · obtain ⟨r, tail, hshare, hkey⟩ := (hps p List.mem_cons_self).sep
    exact ⟨r, tail ++ rest.flatMap Prod.snd, by simp [hshare], hkey⟩
  have hrow (q) (hq : q ∈ p :: rest) : branchRow cbKey q.1 = q.1.1 ++ le 4 q.1.2 := by
    rw [branchRow, List.take_of_length_le (hkeys q hq).le]
  have hlen (e) (he : e ∈ (p :: rest).map Prod.fst) : (branchRow cbKey e).length = cbKey + 4 := by
    obtain ⟨q, hq, rfl⟩ := List.mem_map.1 he
    rw [hrow q hq, List.length_append, hkeys q hq, le_length]
  simp only [bthSearch, hf hid _ hitem, Option.bind_eq_bind, Option.bind_some,
    pieces_flatMap (Nat.succ_pos _) hlen, List.map_map]
  have hsep (q) (hq : q ∈ p :: rest) : Separates (fun q : (Bytes × Nat) × List BthRecord =>
      fromLe q.1.1) Prod.snd BthRecord.num q := by
    obtain ⟨r, tail, hshare, hkey⟩ := (hps q hq).sep
    exact ⟨r, tail, hshare, (congrArg fromLe hkey).symm⟩
  have hfloor : floorEntry (fun q => fromLe (((branchRow cbKey ∘ Prod.fst) q).take cbKey))
      (p :: rest) k = floorEntry (fun q => fromLe q.1.1) (p :: rest) k := by
    refine floorEntry_congr fun q hq => ?_
    rw [Function.comp_apply, hrow q hq, List.take_left' (hkeys q hq)]
  rw [floorEntry_map, hfloor, find?_flatMap_floorEntry k hsep hsorted]
  cases hfound : floorEntry (fun q : (Bytes × Nat) × List BthRecord => fromLe q.1.1)
      (p :: rest) k with
  | none => rfl
  | some q =>
    have hq := mem_of_floorEntry hfound
    have hascending : Ascending q.2 :=
      List.Pairwise.sublist (List.sublist_flatten_of_mem (List.mem_map_of_mem hq)) hsorted
    simp only [Option.map_some, Option.bind_some, Function.comp_apply]
    rw [hrow q hq, List.drop_left' (hkeys q hq), fromLe_le_of_lt (hps q hq).hid.2]
    exact (hps q hq).finds item hf hascending k

theorem bthLookup_header {item : Nat → Option Bytes} {hid levels root : Nat}
    (hitem : item hid = some (bthHeader cbKey cbEnt levels root)) (hkey : cbKey < 256)
    (hent : cbEnt < 256) (hlevels : levels < 256) (hroot : root < 256 ^ 4) (k : Nat) :
    bthLookup item hid k =
      if root ≠ 0 then bthSearch item cbKey cbEnt levels root k else none := by
  have hslice : slice (bthHeader cbKey cbEnt levels root) 4 4 = le 4 root := by
    have hsplit : bthHeader cbKey cbEnt levels root =
        [kHnSigBTH, cbKey.toUInt8, cbEnt.toUInt8, levels.toUInt8] ++ (le 4 root ++ []) := by
      rw [List.append_nil, bthHeader]
    have h := slice_of_split hsplit rfl
    rwa [le_length] at h
  unfold bthLookup
  rw [hitem]
  simp only [Option.bind_eq_bind, Option.bind_some, hslice, fromLe_le_of_lt hroot]
  simp only [bthHeader, List.cons_append, List.getD_cons_zero, List.getD_cons_succ, true_and]
  have hbyte {n : Nat} (hn : n < 256) : n.toUInt8.toNat = n := by
    rw [UInt8.toNat_ofNat']
    exact Nat.mod_eq_of_lt hn
  rw [hbyte hkey, hbyte hent, hbyte hlevels]

/-- A key of at most 8 octets compares as the number it is. -/
theorem BthRecord.Fits.order_eq {r : BthRecord} (h : r.Fits cbKey cbEnt) (hkey : cbKey ≤ 8) :
    r.order = r.num := by
  refine Nat.mod_eq_of_lt (Nat.lt_of_lt_of_le (fromLe_lt r.key) ?_)
  calc 256 ^ r.key.length ≤ 256 ^ 8 := Nat.pow_le_pow_right (by decide) (h.key ▸ hkey)
    _ = wordSize := by decide

/-- Records with distinct keys are ascending once sorted. -/
theorem ascending_sort (std : StdSort) {records : List BthRecord} (hkey : cbKey ≤ 8)
    (hfits : ∀ r ∈ records, r.Fits cbKey cbEnt) (hnodup : (records.map BthRecord.num).Nodup) :
    Ascending (std.sort (byKey BthRecord.order) records) := by
  have hperm := std.perm (byKey BthRecord.order) records
  have hsorted := std.sorted (byKey BthRecord.order) records (byKey_strictWeak _)
  have hdistinct := List.pairwise_map.1 ((hperm.map BthRecord.num).nodup_iff.2 hnodup)
  refine (hsorted.and hdistinct).imp_of_mem fun {a b} ha hb h => ?_
  obtain ⟨hle, hne⟩ := h
  have hord (r) (hr : r ∈ std.sort (byKey BthRecord.order) records) :=
    (hfits r (std.mem_sort.1 hr)).order_eq hkey
  simp only [byKey, hord a ha, hord b hb, decide_eq_false_iff_not] at hle
  omega

/-- The tree that is built finds each record under its key, and nothing else. -/
theorem buildBth_spec {std : StdSort} {records : List BthRecord} {h h' : HeapNode} {hid : Nat}
    (hrun : buildBth std cbKey cbEnt records h = .ok hid h') (hok : h.Ok)
    (hkey : 0 < cbKey ∧ cbKey ≤ 8) (hent : cbEnt < 256)
    (hfits : ∀ r ∈ records, r.Fits cbKey cbEnt) (hnodup : (records.map BthRecord.num).Nodup) :
    h.Grows h' ∧ (0 < hid ∧ hid < 256 ^ 4) ∧ ∀ item, HeapNode.Finds item h' → ∀ k,
      bthLookup item hid k = (records.find? fun r => r.num = k).map (·.value) := by
  have hperm := std.perm (byKey BthRecord.order) records
  have hsorted := ascending_sort std hkey.2 hfits hnodup
  have hrule : PageRule cbKey cbEnt (Leads cbKey cbEnt) :=
    ⟨Leads.mono, fun hok hitem _ hsome hfits => leads_leaf hitem hok hsome (by omega) hfits,
      fun hok hitem _ hsome hps => leads_branch hitem hok hsome hps⟩
  obtain ⟨hg, levels, root, hitem, hroot⟩ := buildBth_rule hrun hrule hok hfits
  refine ⟨hg, hg.ok.hid_range hitem, fun item hf k => ?_⟩
  rcases hroot with ⟨rfl, rfl, rfl⟩ | ⟨hlevels, p, rfl, hp, hlead⟩
  · rw [bthLookup_header (hf hid _ hitem) (by omega) hent (by decide) (by decide)]
    rfl
  · obtain ⟨hpos, hroot⟩ := hlead.hid
    rw [bthLookup_header (hf hid _ hitem) (by omega) hent (by omega) hroot, if_pos hpos.ne',
      hlead.finds item hf (hp ▸ hsorted) k, hp]
    exact congrArg _ (find?_key_perm hperm ((hperm.map BthRecord.num).nodup_iff.2 hnodup) k)

end

end Pst
end Imap2Pst
