import Imap2Pst.Pipeline.Batching

/-!
# Pipeline.Spool

A run that finds the spool of an earlier one. The spool is a map from paths to octets; a write can
reach the disk whole, in part or not at all, and a run that is stopped writes nothing more.

* `Disk`               — the spool directory and the fate of the writes to come.
* `servedFrom`, `takeAll` — a run with a spool, message by message.
* `run_handed`         — the run hands over what they say.
* `spool_reuse_iff`    — when a run with a spool that was left behind hands over what a run
  without one does.
-/

namespace Imap2Pst
namespace Pipeline

open CxxStd Imap

variable {C F W : Type}

/-! ## The disk -/

inductive WriteFate where
  | whole
  /-- Only the first octets are persisted: the write failed, or the run was stopped in it. -/
  | cut (n : Nat)
  /-- The run was stopped before the write. -/
  | lost
  deriving DecidableEq, Repr

/-- The spool directory; a path without a file maps to no octets. -/
structure Disk where
  files : Bytes → Bytes := fun _ => []
  fate : Nat → WriteFate := fun _ => .whole
  writes : Nat := 0

def Disk.write (d : Disk) (path data : Bytes) : Disk :=
  { d with
    writes := d.writes + 1
    files :=
      match d.fate d.writes with
      | .whole => Function.update d.files path data
      | .cut n => Function.update d.files path (data.take n)
      | .lost => d.files }

def diskOps : SpoolOps Disk where
  readFile d path := (d.files path, d)
  writeFile := Disk.write

def Services.onDisk (sv : Services C F W) : Services C Disk W := { sv with spool := diskOps }

/-! ## Paths -/

theorem hexDigit_inj {a b : Nat} (ha : a < 16) (hb : b < 16) (h : hexDigit a = hexDigit b) :
    a = b := by
  interval_cases a <;> interval_cases b <;> first | rfl | exact absurd h (by decide)

theorem map_hexDigit_inj : ∀ {as bs : List Nat}, (∀ a ∈ as, a < 16) → (∀ b ∈ bs, b < 16) →
    as.map hexDigit = bs.map hexDigit → as = bs
  | [], [], _, _, _ => rfl
  | [], _ :: _, _, _, h => by simp at h
  | _ :: _, [], _, _, h => by simp at h
  | a :: as, b :: bs, ha, hb, h => by
    simp only [List.map_cons, List.cons.injEq] at h
    rw [hexDigit_inj (ha a List.mem_cons_self) (hb b List.mem_cons_self) h.1,
      map_hexDigit_inj (fun x hx => ha x (List.mem_cons_of_mem _ hx))
        (fun x hx => hb x (List.mem_cons_of_mem _ hx)) h.2]

/-- The path of a message tells the hash of its folder's name, and its UID. -/
theorem spoolPath_inj {dir f g : Bytes} {u v : UInt32} (h : spoolPath dir f u = spoolPath dir g v) :
    hashName f = hashName g ∧ u = v := by
  simp only [spoolPath, spoolName, List.append_assoc] at h
  have hname := List.append_cancel_left h
  have hhash := List.append_inj_left hname (by simp)
  have hrest := List.append_inj_right hname (by simp)
  have huid := List.append_inj_left (List.append_cancel_left hrest) (by simp)
  have hsmall : ∀ (w n b : Nat), 0 < b → b ≤ 16 → ∀ d ∈ fixedDigits b w n, d < 16 :=
    fun w n b hpos hle d hd => Nat.lt_of_lt_of_le (mem_fixedDigits_lt hpos hd) hle
  have hdigits := map_hexDigit_inj (hsmall 16 _ 16 (by decide) le_rfl)
    (hsmall 16 _ 16 (by decide) le_rfl) hhash
  have hdigits' := map_hexDigit_inj (hsmall 10 _ 10 (by decide) (by decide))
    (hsmall 10 _ 10 (by decide) (by decide)) huid
  constructor
  · have hword : (2 : Nat) ^ 64 = 16 ^ 16 := by norm_num
    exact UInt64.toNat_inj.1 (fixedDigits_inj (lt_of_lt_of_eq (UInt64.toNat_lt _) hword)
      (lt_of_lt_of_eq (UInt64.toNat_lt _) hword) hdigits)
  · have hten : (2 : Nat) ^ 32 ≤ 10 ^ 10 := by norm_num
    exact UInt32.toNat_inj.1 (fixedDigits_inj (lt_of_lt_of_le u.toNat_lt hten)
      (lt_of_lt_of_le v.toNat_lt hten) hdigits')

def Position.path (opts : Options) (p : Position) : Bytes :=
  spoolPath opts.spoolDir p.1.fullName p.2.uid

/-! ## A run with a spool, message by message -/

/-- The octets the server has for a position. -/
def octetsOf (mail : Mailboxes) (p : Position) : Option Bytes := mail p.1.rawName p.2.uid

/-- What there is to store of a position without a spool. -/
def plain (mail : Mailboxes) (p : Position) : Option Bytes := (octetsOf mail p).filter (· ≠ [])

def spooled (opts : Options) (files : Bytes → Bytes) (p : Position) : Bytes :=
  if opts.spoolDir = [] then [] else files (p.path opts)

def servedFrom (opts : Options) (mail : Mailboxes) (files : Bytes → Bytes) (p : Position) :
    Option Bytes :=
  if spooled opts files p ≠ [] then some (spooled opts files p) else plain mail p

/-- The files after a position, all writes being whole. -/
def spoolAfter (opts : Options) (mail : Mailboxes) (files : Bytes → Bytes) (p : Position) :
    Bytes → Bytes :=
  if opts.spoolDir = [] ∨ files (p.path opts) ≠ [] then files
  else
    match plain mail p with
    | some octets => Function.update files (p.path opts) octets
    | none => files

def takeAll (opts : Options) (mail : Mailboxes) :
    (Bytes → Bytes) → List Position → List (FolderInfo × Bytes)
  | _, [] => []
  | files, p :: ps =>
    ((servedFrom opts mail files p).map fun octets => (p.1, octets)).toList ++
      takeAll opts mail (spoolAfter opts mail files p) ps

/-- What was handed to the parser, and by it to `addMessage`. -/
def RunState.handed (st : RunState C F W) : List (FolderInfo × Bytes) :=
  st.attempts.map fun a => (a.folder, a.raw.rfc822)

def Outcome.handed (o : Outcome W) : List (FolderInfo × Bytes) :=
  o.attempts.map fun a => (a.folder, a.raw.rfc822)

theorem takeAll_append (opts : Options) (mail : Mailboxes) :
    ∀ (ps qs : List Position) (files : Bytes → Bytes),
      takeAll opts mail files (ps ++ qs) = takeAll opts mail files ps ++
        takeAll opts mail (ps.foldl (spoolAfter opts mail) files) qs := by
  intro ps
  induction ps with
  | nil => exact fun _ _ => rfl
  | cons p ps ih => exact fun qs files => by simp [takeAll, ih]

/-! ## One batch -/

/-- What a slot hands over. -/
def slotHanded (folder : FolderInfo) (s : MessageMeta × Option RawMessage) :
    Option (FolderInfo × Bytes) :=
  s.2.bind fun raw => if raw.rfc822 = [] then none else some (folder, raw.rfc822)

theorem writeOne_handed (tg : Target W) (folder : FolderInfo) (id : FolderId) (o : Outcome W)
    (s : MessageMeta × Option RawMessage) :
    (writeOne tg folder id o s).handed = o.handed ++ (slotHanded folder s).toList := by
  obtain ⟨info, _ | raw⟩ := s
  · simp [writeOne, slotHanded]
  · simp only [writeOne, slotHanded, Option.bind_some]
    split
    · simp [Outcome.handed, Outcome.add]
    · simp only [deliver]
      split
      · simp [Outcome.handed, Outcome.add]
      · split <;> simp [Outcome.handed, Outcome.add]

theorem foldl_writeOne_handed (tg : Target W) (folder : FolderInfo) (id : FolderId) :
    ∀ (slots : List (MessageMeta × Option RawMessage)) (o : Outcome W),
      (slots.foldl (writeOne tg folder id) o).handed =
        o.handed ++ slots.filterMap (slotHanded folder) := by
  intro slots
  induction slots with
  | nil => simp
  | cons s slots ih =>
    intro o
    rw [List.foldl_cons, ih, writeOne_handed, List.append_assoc]
    cases hs : slotHanded folder s <;> simp [hs]

/-- Every write to come reaches the disk. -/
def Disk.Whole (d : Disk) : Prop := ∀ k, d.fate k = .whole

theorem Disk.Whole.write {d : Disk} (h : d.Whole) (path data : Bytes) :
    (d.write path data).Whole ∧
      (d.write path data).files = Function.update d.files path data := by
  refine ⟨h, ?_⟩
  simp only [Disk.write, h d.writes]

/-- What the spool holds for a message at the start of its batch. -/
def slotFrom (opts : Options) (files : Bytes → Bytes) (folder : FolderInfo) (m : MessageMeta) :
    Option RawMessage :=
  if spooled opts files (folder, m) = [] then none
  else some (ImapClient.rawOf m (spooled opts files (folder, m)))

theorem spoolSlots_disk (sv : Services C F W) (opts : Options) (folder : FolderInfo) (d : Disk) :
    ∀ batch : List MessageMeta, spoolSlots sv.onDisk opts folder batch d =
      (batch.map (slotFrom opts d.files folder), d) := by
  intro batch
  induction batch with
  | nil => rfl
  | cons m batch ih =>
    have hread : sv.onDisk.spool.readFile d (spoolPath opts.spoolDir folder.fullName m.uid) =
        (d.files (Position.path opts (folder, m)), d) := rfl
    simp only [spoolSlots, hread, ih, List.map_cons, slotFrom, spooled]
    by_cases hdir : opts.spoolDir = []
    · simp [hdir]
    · simp only [hdir, if_false]

theorem batchSlots_disk (sv : Services C F W) (opts : Options) (folder : FolderInfo)
    (batch : List MessageMeta) (d : Disk) :
    batchSlots sv.onDisk opts folder batch d =
      batch.map fun m => (m, slotFrom opts d.files folder m) := by
  have hzip : (batch.map fun m => m).zip (batch.map (slotFrom opts d.files folder)) = _ :=
    List.zip_map'
  rw [batchSlots, spoolSlots_disk]
  simpa using hzip

theorem slotHanded_slotFrom (opts : Options) (mail : Mailboxes) (files : Bytes → Bytes)
    (folder : FolderInfo) (m : MessageMeta) :
    slotHanded folder (m, filled mail folder (m, slotFrom opts files folder m)) =
      (servedFrom opts mail files (folder, m)).map fun octets => (folder, octets) := by
  by_cases hspool : spooled opts files (folder, m) = []
  · have hslot : slotFrom opts files folder m = none := if_pos hspool
    have hserved : servedFrom opts mail files (folder, m) = plain mail (folder, m) :=
      if_neg (not_not_intro hspool)
    rw [hslot, hserved]
    simp only [slotHanded, filled, source, plain, octetsOf]
    cases mail folder.rawName m.uid with
    | none => rfl
    | some octets =>
      by_cases hnil : octets = []
      · simp [hnil, ImapClient.rawOf]
      · simp [hnil, ImapClient.rawOf, Option.filter_some]
  · have hslot : slotFrom opts files folder m =
        some (ImapClient.rawOf m (spooled opts files (folder, m))) := if_neg hspool
    have hserved : servedFrom opts mail files (folder, m) =
        some (spooled opts files (folder, m)) := if_pos hspool
    rw [hslot, hserved]
    simp [slotHanded, filled, ImapClient.rawOf, hspool]

/-- The files in the course of a batch that started with `files`. -/
def Fits (opts : Options) (mail : Mailboxes) (folder : FolderInfo) (files cur : Bytes → Bytes) :
    Prop :=
  ∀ m : MessageMeta, let path := Position.path opts (folder, m)
    (files path ≠ [] → cur path = files path) ∧
      (files path = [] → cur path = [] ∨ plain mail (folder, m) = some (cur path))

theorem plain_congr {opts : Options} {mail : Mailboxes} {folder : FolderInfo} {m n : MessageMeta}
    (h : Position.path opts (folder, m) = Position.path opts (folder, n)) :
    plain mail (folder, m) = plain mail (folder, n) := by
  have huid : m.uid = n.uid := (spoolPath_inj h).2
  simp only [plain, octetsOf, huid]

section Batch

variable {opts : Options} {mail : Mailboxes} {folder : FolderInfo} {files cur : Bytes → Bytes}

theorem Fits.served (h : Fits opts mail folder files cur) (m : MessageMeta) :
    servedFrom opts mail cur (folder, m) = servedFrom opts mail files (folder, m) := by
  obtain ⟨hkeep, hfill⟩ := h m
  by_cases hdir : opts.spoolDir = []
  · simp [servedFrom, spooled, hdir]
  · simp only [servedFrom, spooled, hdir, if_false]
    by_cases hf : files (Position.path opts (folder, m)) = []
    · by_cases hnew : cur (Position.path opts (folder, m)) = []
      · simp [hf, hnew]
      · simp [hf, hnew, (hfill hf).resolve_left hnew]
    · rw [hkeep hf]

theorem Fits.after (h : Fits opts mail folder files cur) (m : MessageMeta) :
    Fits opts mail folder files (spoolAfter opts mail cur (folder, m)) := by
  simp only [spoolAfter]
  split
  · exact h
  · rename_i hnew
    have hempty : cur (Position.path opts (folder, m)) = [] := by
      by_contra hne
      exact hnew (.inr hne)
    split
    · rename_i octets hplain
      intro n
      by_cases hpath : Position.path opts (folder, n) = Position.path opts (folder, m)
      · dsimp only
        rw [hpath, Function.update_self]
        refine ⟨fun hf => ?_, fun _ => .inr ((plain_congr hpath).trans hplain)⟩
        exact absurd (((h m).1 hf).symm.trans hempty) hf
      · dsimp only
        rw [Function.update_of_ne hpath]
        exact h n
    · exact h

/-- The write behind a slot that was empty when the batch began. -/
theorem slotSpool_empty (sv : Services C F W) (hdir : opts.spoolDir ≠ []) (d : Disk)
    (m : MessageMeta) :
    slotSpool sv.onDisk opts mail folder d (m, none) =
      match plain mail (folder, m) with
      | some octets => d.write (Position.path opts (folder, m)) octets
      | none => d := by
  simp only [slotSpool, plain, octetsOf]
  cases mail folder.rawName m.uid with
  | none => rfl
  | some octets =>
    by_cases hnil : octets = []
    · simp only [hnil, ne_eq, not_true_eq_false, and_false, if_false]
      rfl
    · simp only [hdir, hnil, Option.filter_some, ne_eq, not_false_eq_true, and_self, if_true,
        decide_true]
      rfl

/-- It writes what is there already, or what the sequential run writes. -/
theorem Fits.slotSpool_eq (h : Fits opts mail folder files cur) (sv : Services C F W) {d : Disk}
    (hd : d.Whole) (hcur : d.files = cur) (m : MessageMeta) :
    (slotSpool sv.onDisk opts mail folder d (m, slotFrom opts files folder m)).Whole ∧
      (slotSpool sv.onDisk opts mail folder d (m, slotFrom opts files folder m)).files =
        spoolAfter opts mail cur (folder, m) := by
  obtain ⟨hkeep, hfill⟩ := h m
  by_cases hdir : opts.spoolDir = []
  · have hslot : slotFrom opts files folder m = none := by simp [slotFrom, spooled, hdir]
    simp only [slotSpool, hslot, spoolAfter, hdir, true_or, if_true]
    cases mail folder.rawName m.uid <;> exact ⟨by simpa using hd, by simpa using hcur⟩
  · by_cases hf : files (Position.path opts (folder, m)) = []
    · have hslot : slotFrom opts files folder m = none := by simp [slotFrom, spooled, hdir, hf]
      rw [hslot, slotSpool_empty sv hdir]
      simp only [spoolAfter, hdir, false_or]
      cases hplain : plain mail (folder, m) with
      | none => exact ⟨hd, by simp [hcur]⟩
      | some octets =>
        obtain ⟨hwhole, hwrite⟩ := hd.write (Position.path opts (folder, m)) octets
        refine ⟨hwhole, ?_⟩
        simp only [hwrite, hcur]
        split
        · rename_i hne
          have hsame := (hfill hf).resolve_left hne
          rw [hplain, Option.some.injEq] at hsame
          rw [hsame, Function.update_eq_self]
        · rfl
    · have hslot : slotFrom opts files folder m =
          some (ImapClient.rawOf m (files (Position.path opts (folder, m)))) := by
        simp [slotFrom, spooled, hdir, hf]
      have hne : cur (Position.path opts (folder, m)) ≠ [] := by rw [hkeep hf]; exact hf
      simp only [slotSpool, hslot, spoolAfter, hne, ne_eq, not_false_eq_true, or_true, if_true]
      exact ⟨hd, hcur⟩

/-- A batch does what its messages do one after the other. -/
theorem Fits.batch (sv : Services C F W) :
    ∀ (batch : List MessageMeta) (cur : Bytes → Bytes) (d : Disk),
      Fits opts mail folder files cur → d.Whole → d.files = cur →
      batch.filterMap (fun m =>
          (servedFrom opts mail files (folder, m)).map fun octets => (folder, octets)) =
        takeAll opts mail cur (batch.map fun m => (folder, m)) ∧
      ((batch.map fun m => (m, slotFrom opts files folder m)).foldl
          (slotSpool sv.onDisk opts mail folder) d).Whole ∧
      ((batch.map fun m => (m, slotFrom opts files folder m)).foldl
          (slotSpool sv.onDisk opts mail folder) d).files =
        (batch.map fun m => (folder, m)).foldl (spoolAfter opts mail) cur := by
  intro batch
  induction batch with
  | nil => exact fun _ _ _ hd hcur => ⟨rfl, hd, hcur⟩
  | cons m batch ih =>
    intro cur d h hd hcur
    obtain ⟨hwhole, hfiles⟩ := h.slotSpool_eq sv hd hcur m
    obtain ⟨hserved, hrest⟩ := ih _ _ (h.after m) hwhole hfiles
    refine ⟨?_, hrest⟩
    rw [List.map_cons, takeAll, ← hserved, h.served m]
    cases hs : servedFrom opts mail files (folder, m) <;> simp [hs]

end Batch

theorem Fits.refl (opts : Options) (mail : Mailboxes) (folder : FolderInfo)
    (files : Bytes → Bytes) : Fits opts mail folder files files :=
  fun _ => ⟨fun _ => rfl, fun h => .inl h⟩

/-! ## The run -/

/-- From `st` to `st'` the positions `ps` were taken one after the other. -/
def Takes (opts : Options) (mail : Mailboxes) (ps : List Position) (st st' : RunState C Disk W) :
    Prop :=
  st.spool.Whole → st'.spool.Whole ∧
    st'.spool.files = ps.foldl (spoolAfter opts mail) st.spool.files ∧
    st'.handed = st.handed ++ takeAll opts mail st.spool.files ps

theorem Takes.append {opts : Options} {mail : Mailboxes} {ps qs : List Position}
    {st mid st' : RunState C Disk W} (h : Takes opts mail ps st mid)
    (h' : Takes opts mail qs mid st') : Takes opts mail (ps ++ qs) st st' := by
  intro hwhole
  obtain ⟨hwhole, hfiles, hhanded⟩ := h hwhole
  obtain ⟨hwhole', hfiles', hhanded'⟩ := h' hwhole
  refine ⟨hwhole', by rw [hfiles', hfiles, List.foldl_append], ?_⟩
  rw [hhanded', hhanded, hfiles, takeAll_append, List.append_assoc]

/-- Steps that leave the spool and the attempts alone. -/
theorem Takes.none {opts : Options} {mail : Mailboxes} {st st' : RunState C Disk W}
    (hspool : st'.spool = st.spool) (hattempts : st'.attempts = st.attempts) :
    Takes opts mail [] st st' :=
  fun hwhole => ⟨by rw [hspool]; exact hwhole, by rw [hspool]; rfl, by
    simp [RunState.handed, hattempts, takeAll]⟩

section Run

variable {sv : Services C F W} {mail : Mailboxes} {opts : Options}
  {folders : Reply ClientExn (List FolderInfo)}
  {listing : Bytes → Reply ClientExn (List MessageMeta)}

theorem runBatch_takes (hc : Honest sv.client mail) (folder : FolderInfo) (id : FolderId)
    (batch : List MessageMeta) (st st' : RunState C Disk W)
    (h : runBatch sv.onDisk opts folder id batch st = (.returns, st')) :
    Takes opts mail (batch.map fun m => (folder, m)) st st' := by
  intro hwhole
  have hc' : Honest sv.onDisk.client mail := hc
  obtain ⟨st'', hrun, hout, hspool⟩ := runBatch_honest hc' opts folder id batch st
  rw [hrun, Prod.mk.injEq] at h
  obtain ⟨-, rfl⟩ := h
  obtain ⟨hserved, hwhole', hfiles⟩ := Fits.batch sv batch st.spool.files st.spool
    (Fits.refl opts mail folder _) hwhole rfl
  rw [batchSlots_disk] at hout hspool
  rw [spoolSlots_disk] at hspool
  refine ⟨by rw [hspool]; exact hwhole', by rw [hspool]; exact hfiles, ?_⟩
  have hhanded : st''.outcome.handed = st''.handed := rfl
  rw [← hhanded, hout, foldl_writeOne_handed, ← hserved, List.filterMap_map, List.filterMap_map]
  refine congrArg (st.handed ++ ·) (List.filterMap_congr fun m _ => ?_)
  exact slotHanded_slotFrom opts mail st.spool.files folder m

theorem batchLoop_takes (hc : Honest sv.client mail) (folder : FolderInfo) (id : FolderId)
    (fuel : Nat) (metas : List MessageMeta) (st st' : RunState C Disk W)
    (h : batchLoop sv.onDisk opts folder id fuel metas st = (.returns, st')) :
    Takes opts mail (metas.map fun m => (folder, m)) st st' := by
  refine batchLoop_rule (R := fun metas st st' =>
    Takes opts mail (metas.map fun m => (folder, m)) st st') (fun st => .none rfl rfl) ?_
    fuel metas st st' h
  intro batch rest st mid st' hbatch hrest
  rw [List.map_append]
  exact (runBatch_takes hc folder id batch st mid hbatch).append hrest

/-- What a folder lists, when `run` asks. -/
def folderPositions (listing : Bytes → Reply ClientExn (List MessageMeta)) (folder : FolderInfo) :
    List Position :=
  if folder.selectable ∧ folder.path ≠ [] then
    match listing folder.rawName with
    | .ok metas => metas.map fun m => (folder, m)
    | _ => []
  else []

theorem runFolder_takes (hc : Honest sv.client mail) (hl : Lists sv.client folders listing)
    (folder : FolderInfo) (st st' : RunState C Disk W)
    (h : runFolder sv.onDisk opts folder st = (.returns, st')) :
    Takes opts mail (folderPositions listing folder) st st' := by
  unfold runFolder at h
  split at h
  · rename_i hpath
    cases h
    have hnone : folderPositions listing folder = [] := if_neg (by simp [hpath])
    rw [hnone]
    exact .none rfl rfl
  · rename_i hpath
    split at h
    · cases h
    · rename_i id writer byPath _
      by_cases hsel : folder.selectable
      · rw [if_pos hsel] at h
        obtain ⟨client, hlist⟩ := hl.messages st.client folder.rawName
        have hlist' : sv.onDisk.client.listMessages st.client folder.rawName =
            (listing folder.rawName, client) := hlist
        have hask : folderPositions listing folder = match listing folder.rawName with
            | .ok metas => metas.map fun m => (folder, m)
            | _ => [] := if_pos ⟨hsel, hpath⟩
        simp only [runListing, hlist'] at h
        rw [hask]
        cases hanswer : listing folder.rawName with
        | ok metas =>
          simp only [hanswer] at h
          have hloop := batchLoop_takes hc folder id _ metas _ st' h
          exact hloop
        | throws e =>
          cases e with
          | imapError what =>
            simp only [hanswer, Prod.mk.injEq, true_and] at h
            subst h
            exact .none rfl rfl
          | outOfRange what => simp [hanswer] at h
        | hangs => simp [hanswer] at h
      · rw [if_neg hsel] at h
        cases h
        have hnone : folderPositions listing folder = [] := if_neg (by simp [hsel])
        rw [hnone]
        exact .none rfl rfl

theorem folderLoop_takes (hc : Honest sv.client mail) (hl : Lists sv.client folders listing)
    (todo : List FolderInfo) (st st' : RunState C Disk W)
    (h : folderLoop sv.onDisk opts todo st = (.returns, st')) :
    Takes opts mail (todo.flatMap (folderPositions listing)) st st' := by
  refine folderLoop_rule (R := fun todo st st' =>
    Takes opts mail (todo.flatMap (folderPositions listing)) st st') (fun st => .none rfl rfl) ?_
    todo st st' h
  intro folder rest st mid st' hfolder hrest
  rw [List.flatMap_cons]
  exact (runFolder_takes hc hl folder st mid hfolder).append hrest

end Run

/-- The positions of a run: the folders in their order, and the listing of each. -/
def positionsOf (srt : StdSort) (opts : Options) (listed : List FolderInfo)
    (listing : Bytes → Reply ClientExn (List MessageMeta)) : List Position :=
  (srt.sort folderLt (selected opts listed)).flatMap (folderPositions listing)

/-- A run that returns has handed over its positions one after the other. -/
theorem run_handed {sv : Services C F W} {mail : Mailboxes} {opts : Options}
    {listed : List FolderInfo} {listing : Bytes → Reply ClientExn (List MessageMeta)}
    (hc : Honest sv.client mail) (hl : Lists sv.client (.ok listed) listing) {client : C} {d : Disk}
    (hd : d.Whole) {st : RunState C Disk W}
    (h : run sv.onDisk opts client d = (.returns, some st)) :
    st.handed = takeAll opts mail d.files (positionsOf sv.srt opts listed listing) := by
  obtain ⟨listed', client', writer, hlist, -, hmig⟩ := run_eq_some h
  obtain ⟨c', hfolders⟩ := hl.folders client
  obtain ⟨rfl, rfl⟩ : listed' = listed ∧ client' = c' := by
    have hsame : sv.client.listFolders client = (.ok listed', client') := hlist
    rw [hfolders] at hsame
    simpa [eq_comm] using hsame
  obtain ⟨mid, hloop, hfinish⟩ := andThen_returns hmig
  obtain ⟨-, -, hhanded⟩ := folderLoop_takes hc hl _ _ _ hloop hd
  have hkeep : (finishWriter sv.onDisk mid).2.attempts = mid.attempts := by
    simp only [finishWriter]
    split <;> rfl
  rw [hfinish] at hkeep
  replace hkeep : st.attempts = mid.attempts := hkeep
  have hst : st.handed = mid.handed := by simp only [RunState.handed, hkeep]
  rw [hst, hhanded]
  rfl

/-! ## Reuse -/

/-- Every file at the path of a listed message holds all of that message. -/
def Trustworthy (opts : Options) (mail : Mailboxes) (files : Bytes → Bytes) (ps : List Position) :
    Prop :=
  ∀ p ∈ ps, files (p.path opts) ≠ [] → octetsOf mail p = some (files (p.path opts))

/-- A message that is not in the spool has the octets of every later one with its folder name and
its UID. -/
def Unambiguous (opts : Options) (mail : Mailboxes) (files : Bytes → Bytes) (ps : List Position) :
    Prop :=
  ps.Pairwise fun p q => p.1.fullName = q.1.fullName → p.2.uid = q.2.uid →
    files (p.path opts) = [] → ∀ octets, plain mail p = some octets → octetsOf mail q = some octets

/-- Folder names that occur in `ps` do not collide. -/
def NoCollision (ps : List Position) : Prop :=
  ∀ p ∈ ps, ∀ q ∈ ps, hashName p.1.fullName = hashName q.1.fullName → p.1.fullName = q.1.fullName

/-- The spool a run leaves behind, its writes having come to `fate`. -/
def leftBehind (sv : Services C F W) (opts : Options) (client : C) (fate : Nat → WriteFate) :
    Bytes → Bytes :=
  match (run sv.onDisk opts client { fate }).2 with
  | some st => st.spool.files
  | none => fun _ => []

section Reuse

variable {opts : Options} {mail : Mailboxes}

theorem takeAll_off (hdir : opts.spoolDir = []) (ps : List Position) (files : Bytes → Bytes) :
    takeAll opts mail files ps = ps.filterMap fun p => (plain mail p).map fun o => (p.1, o) := by
  induction ps generalizing files with
  | nil => rfl
  | cons p ps ih =>
    have hserved : servedFrom opts mail files p = plain mail p := by
      simp [servedFrom, spooled, hdir]
    rw [takeAll, ih, hserved]
    cases hp : plain mail p <;> simp [hp]

/-- Each position is served what the server has. -/
def AllPlain (opts : Options) (mail : Mailboxes) : (Bytes → Bytes) → List Position → Prop
  | _, [] => True
  | files, p :: ps =>
    servedFrom opts mail files p = plain mail p ∧ AllPlain opts mail (spoolAfter opts mail files p) ps

theorem servedFrom_some (opts : Options) (files : Bytes → Bytes) {p : Position} {octets : Bytes}
    (h : plain mail p = some octets) : ∃ served, servedFrom opts mail files p = some served := by
  simp only [servedFrom]
  split
  · exact ⟨_, rfl⟩
  · exact ⟨octets, h⟩

theorem filterMap_length_le (opts : Options) (mail : Mailboxes) (ps : List Position)
    (files : Bytes → Bytes) :
    (ps.filterMap fun p => (plain mail p).map fun o => (p.1, o)).length ≤
      (takeAll opts mail files ps).length := by
  induction ps generalizing files with
  | nil => simp
  | cons p ps ih =>
    have hrest := ih (spoolAfter opts mail files p)
    cases hp : plain mail p with
    | none => simp only [takeAll, List.filterMap_cons, hp, Option.map_none, List.length_append]; omega
    | some octets =>
      obtain ⟨served, hs⟩ := servedFrom_some opts files hp
      simp only [takeAll, List.filterMap_cons, hp, hs, Option.map_some, List.length_append,
        Option.toList_some, List.length_cons, List.length_nil]
      omega

/-- The spool only ever adds to what is handed over, so nothing can make up for a wrong piece. -/
theorem takeAll_eq_iff (ps : List Position) (files : Bytes → Bytes) :
    takeAll opts mail files ps = (ps.filterMap fun p => (plain mail p).map fun o => (p.1, o)) ↔
      AllPlain opts mail files ps := by
  induction ps generalizing files with
  | nil => simp [takeAll, AllPlain]
  | cons p ps ih =>
    rw [AllPlain, ← ih, takeAll]
    have hlen := filterMap_length_le opts mail ps (spoolAfter opts mail files p)
    cases hp : plain mail p with
    | none =>
      simp only [List.filterMap_cons, hp, Option.map_none]
      cases hs : servedFrom opts mail files p with
      | none => simp
      | some served =>
        simp only [Option.map_some, Option.toList_some, List.cons_append, List.nil_append,
          reduceCtorEq, false_and, iff_false]
        intro heq
        have := congrArg List.length heq
        simp only [List.length_cons] at this
        omega
    | some octets =>
      obtain ⟨served, hs⟩ := servedFrom_some opts files hp
      simp [hp, hs]

theorem plain_eq_some {p : Position} {octets : Bytes} :
    plain mail p = some octets ↔ octetsOf mail p = some octets ∧ octets ≠ [] := by
  simp [plain, Option.filter_eq_some_iff]

theorem servedFrom_eq_plain_iff (hdir : opts.spoolDir ≠ []) {files : Bytes → Bytes} {p : Position} :
    servedFrom opts mail files p = plain mail p ↔
      (files (p.path opts) ≠ [] → octetsOf mail p = some (files (p.path opts))) := by
  simp only [servedFrom, spooled, hdir, if_false]
  by_cases hf : files (p.path opts) = []
  · simp [hf]
  · simp only [hf, ne_eq, not_false_eq_true, if_true, forall_const]
    rw [eq_comm, plain_eq_some]
    simp [hf]

theorem path_eq_iff {ps : List Position} (hhash : NoCollision ps) {p q : Position} (hp : p ∈ ps)
    (hq : q ∈ ps) :
    p.path opts = q.path opts ↔ p.1.fullName = q.1.fullName ∧ p.2.uid = q.2.uid := by
  constructor
  · intro h
    obtain ⟨hname, huid⟩ := spoolPath_inj h
    exact ⟨hhash p hp q hq hname, huid⟩
  · rintro ⟨hname, huid⟩
    simp only [Position.path, hname, huid]

theorem allPlain_iff (hdir : opts.spoolDir ≠ []) :
    ∀ (ps : List Position) (files : Bytes → Bytes), NoCollision ps →
      (AllPlain opts mail files ps ↔
        Trustworthy opts mail files ps ∧ Unambiguous opts mail files ps) := by
  intro ps
  induction ps with
  | nil => simp [AllPlain, Trustworthy, Unambiguous]
  | cons p ps ih =>
    intro files hhash
    have hrest : NoCollision ps := fun a ha b hb =>
      hhash a (List.mem_cons_of_mem _ ha) b (List.mem_cons_of_mem _ hb)
    rw [AllPlain, servedFrom_eq_plain_iff hdir, ih _ hrest]
    simp only [Trustworthy, Unambiguous, List.forall_mem_cons, List.pairwise_cons]
    by_cases hkeep : files (p.path opts) ≠ [] ∨ plain mail p = none
    · -- the files stay as they are
      have hafter : spoolAfter opts mail files p = files := by
        simp only [spoolAfter]
        split
        · rfl
        · rename_i hnew
          rcases hkeep with hf | hp
          · exact absurd (.inr hf) hnew
          · rw [hp]
      have hhead : ∀ q ∈ ps, p.1.fullName = q.1.fullName → p.2.uid = q.2.uid →
          files (p.path opts) = [] → ∀ octets, plain mail p = some octets →
            octetsOf mail q = some octets := by
        intro q _ _ _ hf octets hp
        rcases hkeep with hne | hnone
        · exact absurd hf hne
        · rw [hnone] at hp
          cases hp
      rw [hafter]
      exact ⟨fun ⟨h1, h2, h3⟩ => ⟨⟨h1, h2⟩, hhead, h3⟩, fun ⟨⟨h1, h2⟩, _, h3⟩ => ⟨h1, h2, h3⟩⟩
    · -- the source of `p` is written
      simp only [not_or, not_not] at hkeep
      obtain ⟨hempty, hsome⟩ := hkeep
      obtain ⟨octets, hp⟩ := Option.ne_none_iff_exists'.1 hsome
      have hne : octets ≠ [] := (plain_eq_some.1 hp).2
      have hafter : spoolAfter opts mail files p =
          Function.update files (p.path opts) octets := by
        simp only [spoolAfter, hdir, hempty, false_or, ne_eq, not_true_eq_false, if_false, hp]
      have hat : ∀ q, Position.path opts q = p.path opts →
          Function.update files (p.path opts) octets (q.path opts) = octets := fun q hq => by
        rw [hq, Function.update_self]
      have hoff : ∀ q, Position.path opts q ≠ p.path opts →
          Function.update files (p.path opts) octets (q.path opts) = files (q.path opts) :=
        fun q hq => Function.update_of_ne hq ..
      rw [hafter]
      constructor
      · rintro ⟨hfirst, htrust, hclear⟩
        have hsame : ∀ q ∈ ps, q.path opts = p.path opts → octetsOf mail q = some octets := by
          intro q hq hpath
          have := htrust q hq (by rw [hat q hpath]; exact hne)
          rwa [hat q hpath] at this
        refine ⟨⟨hfirst, fun q hq hf => ?_⟩, fun q hq hname huid _ o ho => ?_, ?_⟩
        · have hpath : q.path opts ≠ p.path opts := by
            intro h
            rw [h] at hf
            exact hf hempty
          have := htrust q hq (by rw [hoff q hpath]; exact hf)
          rwa [hoff q hpath] at this
        · have hpath : q.path opts = p.path opts := by simp only [Position.path, hname, huid]
          rw [hp, Option.some.injEq] at ho
          exact ho ▸ hsame q hq hpath
        · refine hclear.imp_of_mem ?_
          intro q r hq hr hqr hname huid hf o ho
          by_cases hpath : q.path opts = p.path opts
          · have hrpath : r.path opts = p.path opts := by
              rw [← hpath]
              simp only [Position.path, hname, huid]
            have hqo := (plain_eq_some.1 ho).1
            rw [hsame q hq hpath] at hqo
            exact hqo ▸ hsame r hr hrpath
          · exact hqr hname huid (by rw [hoff q hpath]; exact hf) o ho
      · rintro ⟨⟨hfirst, htrust⟩, hhead, hclear⟩
        refine ⟨hfirst, fun q hq hf => ?_, ?_⟩
        · by_cases hpath : q.path opts = p.path opts
          · obtain ⟨hname, huid⟩ := (path_eq_iff hhash (List.mem_cons_of_mem _ hq)
              List.mem_cons_self).1 hpath
            rw [hat q hpath]
            exact hhead q hq hname.symm huid.symm hempty octets hp
          · rw [hoff q hpath] at hf ⊢
            exact htrust q hq hf
        · refine hclear.imp_of_mem ?_
          intro q r _ _ hqr hname huid hf o ho
          by_cases hpath : q.path opts = p.path opts
          · rw [hat q hpath] at hf
            exact absurd hf hne
          · exact hqr hname huid (by rw [hoff q hpath] at hf; exact hf) o ho

end Reuse

/-- A run over the spool that another left behind hands over what a run without a spool does exactly
when the spool holds, for each listed message, nothing or all of it, and no two listed messages
that are kept under one name differ. -/
theorem spool_reuse_iff (sv : Services C F W) (mail : Mailboxes) (listed : List FolderInfo)
    (listing : Bytes → Reply ClientExn (List MessageMeta)) (opts : Options)
    (hc : Honest sv.client mail) (hl : Lists sv.client (.ok listed) listing)
    (hdir : opts.spoolDir ≠ []) (hhash : NoCollision (positionsOf sv.srt opts listed listing))
    (fate : Nat → WriteFate) (client₀ client₁ client₂ : C) (st₀ st₂ : RunState C Disk W)
    (hplain : run sv.onDisk { opts with spoolDir := [] } client₀ {} = (.returns, some st₀))
    (hreuse : run sv.onDisk opts client₂ { files := leftBehind sv opts client₁ fate } =
      (.returns, some st₂)) :
    st₂.handed = st₀.handed ↔
      Trustworthy opts mail (leftBehind sv opts client₁ fate)
          (positionsOf sv.srt opts listed listing) ∧
        Unambiguous opts mail (leftBehind sv opts client₁ fate)
          (positionsOf sv.srt opts listed listing) := by
  have hoff : { opts with spoolDir := [] }.spoolDir = [] := rfl
  have hsame : positionsOf sv.srt { opts with spoolDir := [] } listed listing =
      positionsOf sv.srt opts listed listing := rfl
  rw [run_handed hc hl (fun _ => rfl) hreuse, run_handed hc hl (fun _ => rfl) hplain,
    takeAll_off hoff, hsame, takeAll_eq_iff, allPlain_iff hdir _ _ hhash]

/-! ## A torn file -/

theorem oneByOne_honest (folders : List FolderInfo) (metas : Bytes → List MessageMeta)
    (mail : Mailboxes) : Honest (oneByOne folders metas mail) mail where
  single c mailbox info := by
    refine ⟨(), ?_⟩
    simp only [oneByOne]
    cases mail mailbox info.uid with
    | none => exact .inr ⟨rfl, _, rfl⟩
    | some octets => exact .inl ⟨octets, rfl, rfl⟩
  batch _ _ _ := ⟨(), .inl ⟨_, rfl⟩⟩

theorem oneByOne_lists (folders : List FolderInfo) (metas : Bytes → List MessageMeta)
    (mail : Mailboxes) : Lists (oneByOne folders metas mail) (.ok folders) fun m => .ok (metas m) :=
  ⟨fun _ => ⟨(), rfl⟩, fun _ _ => ⟨(), rfl⟩⟩

def folderA : FolderInfo := { fullName := [65], rawName := [65] }

/-- One folder with the one message of `oneMail`. -/
def oneFolder : Services Unit Unit Shelf :=
  onto (oneByOne [folderA] (fun _ => [{ uid := 1 }]) oneMail)

/-- A first run that is stopped in its first write leaves one octet behind, and the second run puts
that in the PST. -/
theorem torn_file_is_handed_over :
    let opts : Options := { spoolDir := [46] }
    let torn := leftBehind oneFolder opts () fun k => if k = 0 then .cut 1 else .lost
    ((run oneFolder.onDisk { opts with spoolDir := [] } () {}).2.map RunState.handed =
        some [(folderA, [72, 105])]) ∧
      (run oneFolder.onDisk opts () { files := torn }).1 = .returns ∧
      (run oneFolder.onDisk opts () { files := torn }).2.map RunState.handed =
        some [(folderA, [72])] := by
  decide +kernel

theorem exists_of_returns {sv : Services C F W} {opts : Options} {client : C} {f : F}
    (h : (run sv opts client f).1 = .returns) :
    ∃ st, run sv opts client f = (.returns, some st) := by
  unfold run at h ⊢
  split
  · simp_all
  · simp_all
  · split
    · simp_all
    · simp_all

/-- The theorem at the same folder, with a first run that was not disturbed. -/
theorem whole_spool_reuse :
    ∃ st₀ st₂, run oneFolder.onDisk {} () {} = (.returns, some st₀) ∧
      run oneFolder.onDisk { spoolDir := [46] } ()
        { files := leftBehind oneFolder { spoolDir := [46] } () fun _ => .whole } =
          (.returns, some st₂) ∧
      (st₂.handed = st₀.handed ↔
        Trustworthy { spoolDir := [46] } oneMail
            (leftBehind oneFolder { spoolDir := [46] } () fun _ => .whole)
            (positionsOf .insertion { spoolDir := [46] } [folderA] fun _ => .ok [{ uid := 1 }]) ∧
          Unambiguous { spoolDir := [46] } oneMail
            (leftBehind oneFolder { spoolDir := [46] } () fun _ => .whole)
            (positionsOf .insertion { spoolDir := [46] } [folderA] fun _ => .ok [{ uid := 1 }])) := by
  obtain ⟨st₀, h₀⟩ := exists_of_returns
    (show (run oneFolder.onDisk {} () {}).1 = .returns by decide +kernel)
  obtain ⟨st₂, h₂⟩ := exists_of_returns
    (show (run oneFolder.onDisk { spoolDir := [46] } ()
      { files := leftBehind oneFolder { spoolDir := [46] } () fun _ => .whole }).1 = .returns by
        decide +kernel)
  have hone : positionsOf .insertion { spoolDir := [46] } [folderA]
      (fun _ => (.ok [{ uid := 1 }] : Reply ClientExn (List MessageMeta))) =
        [(folderA, { uid := 1 })] := by decide +kernel
  have hhash : NoCollision (positionsOf .insertion { spoolDir := [46] } [folderA]
      fun _ => .ok [{ uid := 1 }]) := by
    intro p hp q hq _
    rw [hone] at hp hq
    rw [List.mem_singleton.1 hp, List.mem_singleton.1 hq]
  exact ⟨st₀, st₂, h₀, h₂, spool_reuse_iff oneFolder oneMail [folderA] _ { spoolDir := [46] }
    (oneByOne_honest _ _ _) (oneByOne_lists _ _ _) (by decide) hhash _ () () () st₀ st₂ h₀ h₂⟩

end Pipeline
end Imap2Pst
