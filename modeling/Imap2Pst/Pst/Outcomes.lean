import Imap2Pst.Pst.PstWriter
import Imap2Pst.Std.Outcomes

/-!
# Pst.Outcomes

Every call of the PST layers touches the file through `emitBlock` alone, until `finish`. So where
a block takes the file, whether it is written or refused, is where every such call takes it.

* `writeData_drives`, `writeSubnodes_drives` — the node database.
* `serialize_drives`, `node_drives` — property contexts and tables in memory.
* `writeRow_drives`, `finish_drives` — streaming tables.
* `buildMessage_drives` — a message, with all that is in it.
-/

namespace Imap2Pst
namespace Pst

open CxxStd

variable {R E : NdbWriter → NdbWriter → Prop} [Escapes R E]

section

variable (hblock : ∀ data internal, Drives R E (emitBlock data internal))

include hblock

/-! ## The node database -/

theorem assembleDataTree_drives (leaves : List Nat) (totalBytes : Nat) :
    Drives R E (assembleDataTree leaves totalBytes) := by
  unfold assembleDataTree
  split
  · exact hblock _ _
  · exact drives_pure _
  · refine drives_ite (fun _ => drives_throw_bind _ _) fun _ => ?_
    refine drives_ite (fun _ => hblock _ _) fun _ => ?_
    refine drives_bind (drives_each fun _ _ => hblock _ _) fun xblocks => ?_
    exact drives_ite (fun _ => drives_throw_bind _ _) fun _ => hblock _ _

theorem writeData_drives (data : Bytes) : Drives R E (writeData data) := by
  unfold writeData
  split
  · exact hblock _ _
  · exact drives_bind (drives_each fun _ _ => hblock _ _)
      fun leaves => assembleDataTree_drives hblock leaves _

theorem writeSubnodes_drives (std : StdSort) (entries : List SubnodeEntry) :
    Drives R E (writeSubnodes std entries) := by
  unfold writeSubnodes
  refine drives_ite (fun _ => drives_pure 0) fun _ => ?_
  refine drives_ite (fun _ => hblock _ _) fun _ => ?_
  have hpiece (piece : List SubnodeEntry) : Drives R E (do
      let bid ← emitSl piece
      pure ((piece.headD {}).nid, bid)) :=
    drives_bind (hblock _ _) fun bid => drives_pure _
  refine drives_bind (drives_each fun piece _ => hpiece piece) fun children => ?_
  exact drives_ite (fun _ => drives_throw_bind _ _) fun _ => hblock _ _

theorem writeHeap_drives (std : StdSort) (heap : Bytes) (entries : List SubnodeEntry) :
    Drives R E (writeHeap std heap entries) :=
  drives_bind (writeData_drives hblock heap) fun _ =>
    drives_bind (writeSubnodes_drives hblock std entries) fun _ => drives_pure _

/-! ## Values -/

omit [Escapes R E] hblock in
theorem onNdb_drives {α σ : Type} {x : Ndb α} (h : Drives R E x) :
    Drives (Outer (τ := σ) R) (Outer E) (onNdb x) := drives_onOuter h

theorem spill_drives (data : Bytes) :
    Drives (Outer R) (Outer E) (SubnodeAllocator.spill data) := by
  refine drives_bind (onNdb_drives (writeData_drives hblock data)) fun bid => ?_
  exact drives_get_bind fun p => drivesFrom_bind (drivesFrom_set (refl (r := R) p.1)) fun _ =>
    drives_pure _

theorem storeBytes_drives (data : Bytes) :
    Drives (Outer (Outer R)) (Outer (Outer E)) (storeBytes data) :=
  drives_ite (fun _ => drives_onLocal) fun _ => drives_onOuter (spill_drives hblock data)

theorem serialize_drives (std : StdSort) (pc : PropertyContext) :
    Drives (Outer R) (Outer E) (pc.serialize std) := by
  have hplace (v : PcValue) : Drives (Outer (Outer R)) (Outer (Outer E))
      (PropertyContext.place v) := by
    cases v with
    | inline v => exact drives_pure v
    | spilled nid => exact drives_pure nid
    | bytes b => exact storeBytes_drives hblock b
  refine drives_bind (drives_withLocal ?_) fun _ => drives_pure _
  refine drives_bind (drives_each fun e _ => drives_bind (hplace e.2) fun _ => drives_pure _)
    fun records => ?_
  refine drives_bind drives_onLocal fun root => drives_modify fun t => ?_
  exact refl (r := Outer R) t.1

/-! ## Tables in memory -/

namespace TableContext

theorem storeRows_drives (size : Nat) (matrix : List Bytes) :
    Drives (Outer (Outer R)) (Outer (Outer E)) (storeRows size matrix) := by
  refine drives_ite (fun _ => drives_pure 0) fun _ => ?_
  exact drives_ite (fun _ => drives_onLocal) fun _ => drives_onOuter (spill_drives hblock _)

theorem fillRow_drives (lay : Layout) (cells : List (Column × Cell)) (row : Bytes) :
    Drives (Outer (Outer R)) (Outer (Outer E)) (fillRow lay cells row) := by
  have hcell (c : Column) (cell : Cell) : Drives (Outer (Outer R)) (Outer (Outer E))
      (cellField c cell) := by
    cases cell with
    | absent => exact drives_pure none
    | fixed b => exact drives_pure _
    | «variable» b =>
      refine drives_bind ?_ fun _ => drives_pure _
      exact drives_ite (fun _ => drives_pure 0) fun _ => storeBytes_drives hblock b
  induction cells generalizing row with
  | nil => exact drives_pure row
  | cons p cells ih =>
    obtain ⟨c, cell⟩ := p
    refine drives_bind (hcell c cell) fun f => ?_
    cases f with
    | none => exact ih row
    | some b => exact ih _

theorem serialize_drives (std : StdSort) (t : TableContext) :
    Drives (Outer R) (Outer E) (t.serialize std) := by
  refine drives_bind (drives_withLocal ?_) fun _ => drives_pure _
  refine drives_bind (drives_each fun r _ => fillRow_drives hblock _ _ _) fun matrix => ?_
  refine drives_bind (storeRows_drives hblock _ _) fun hnidRows => ?_
  refine drives_bind drives_onLocal fun index => drives_bind drives_onLocal fun root =>
    drives_modify fun t => ?_
  exact refl (r := Outer R) t.1

theorem node_drives (std : StdSort) (columns : List Nat) (calls : List TableCall) :
    Drives R E (node std columns calls) := by
  refine drives_bind (drives_withLocal drives_onLocal) fun p => ?_
  refine drives_bind (drives_withLocal (serialize_drives hblock std p.2)) fun q => ?_
  exact writeHeap_drives hblock std q.1 q.2.entries

end TableContext

/-! ## Streaming tables -/

omit hblock in
/-- The object is changed, and the file is not. -/
theorem drivesFrom_object {σ : Type} {w : NdbWriter} {t : σ} (t' : σ) :
    DrivesFrom (Outer R) (Outer E) (w, t)
      (set (w, t') : Streaming σ PUnit) := drivesFrom_set (refl (r := R) w)

namespace StreamingHeap

theorem flushCurrent_drives (last : Bool) : Drives (Outer R) (Outer E) (flushCurrent last) := by
  refine drives_get_bind fun p => drivesFrom_bind (onNdb_drives (hblock _ _) _) fun bid => ?_
  exact drives_modify fun p => refl (r := R) p.1

theorem alloc_drives (data : Bytes) : Drives (Outer R) (Outer E) (alloc data) := by
  unfold alloc
  refine drives_ite (fun _ => drives_throw_bind _ _) fun _ => drives_get_bind fun p => ?_
  refine drivesFrom_ite (fun _ => drivesFrom_bind (drivesFrom_object _) fun _ => drives_pure _)
    fun _ => ?_
  refine drivesFrom_ite (fun _ => drivesFrom_bind (drivesFrom_object _) fun _ => ?_) fun _ => ?_
  · exact drives_get_bind fun q => drivesFrom_bind (drivesFrom_object _) fun _ => drives_pure _
  refine drivesFrom_ite (fun _ => ?_) fun _ => ?_
  · refine drivesFrom_bind (flushCurrent_drives hblock false _) fun _ => ?_
    refine drives_bind (drives_modify fun q => refl (r := R) q.1) fun _ => ?_
    refine drives_get_bind fun q => drivesFrom_ite (fun _ => drives_throw_bind _ _ _) fun _ => ?_
    exact (drives_get_bind fun r =>
      drivesFrom_bind (drivesFrom_object _) fun _ => drives_pure _) q
  · exact (drives_get_bind fun q =>
      drivesFrom_bind (drivesFrom_object _) fun _ => drives_pure _) p

theorem finish_drives : Drives (Outer R) (Outer E) finish := by
  have hfirst (only : Bool) : Drives (Outer R) (Outer E) (finishFirst only) := by
    refine drives_get_bind fun p => drivesFrom_bind (onNdb_drives (hblock _ _) _) fun bid => ?_
    refine drives_bind (drives_modify fun p => refl (r := R) p.1) fun _ => ?_
    exact onNdb_drives (assembleDataTree_drives hblock _ _)
  refine drives_get_bind fun p => drivesFrom_ite (fun _ => drives_throw_bind _ _ _) fun _ => ?_
  refine drivesFrom_bind (drivesFrom_object _) fun _ =>
    drives_ite (fun _ => hfirst true) fun _ => ?_
  exact drives_bind (flushCurrent_drives hblock true) fun _ => hfirst false

end StreamingHeap

omit hblock [Escapes R E] in
/-- The B-tree of a heap is built by its allocations. -/
theorem buildBthInto_drives {σ : Type} {S F : σ → σ → Prop} [Escapes S F] (std : StdSort)
    {alloc : Bytes → EStateM PstError σ Nat} (halloc : ∀ data, Drives S F (alloc data))
    (cbKey cbEnt : Nat) (records : List BthRecord) :
    Drives S F (buildBthInto std alloc cbKey cbEnt records) := by
  have hgrow (left : Nat) (level : List (Bytes × Nat)) :
      Drives S F (growBth alloc cbKey left level) := by
    induction left generalizing level with
    | zero =>
      unfold growBth
      refine drives_ite (fun _ => drives_pure _) fun _ => ?_
      refine drives_bind (drives_each fun _ _ => drives_bind (halloc _) fun _ => drives_pure _)
        fun _ => drives_throw _
    | succ left ih =>
      unfold growBth
      refine drives_ite (fun _ => drives_pure _) fun _ => ?_
      exact drives_bind (drives_each fun _ _ => drives_bind (halloc _) fun _ => drives_pure _)
        fun next => ih next
  unfold buildBthInto
  refine drives_ite (fun _ => halloc _) fun _ => ?_
  refine drives_bind (drives_each fun _ _ => drives_bind (halloc _) fun _ => drives_pure _)
    fun level => ?_
  exact drives_bind (hgrow 8 level) fun _ => halloc _

namespace StreamingTable

omit hblock [Escapes R E] in
theorem onHeap_drives {α : Type} {x : Streaming StreamingHeap α}
    (h : Drives (Outer R) (Outer E) x) : Drives (Outer R) (Outer E) (onHeap x) :=
  h.onto (fun _ _ hr => hr) fun _ _ he => he

omit hblock [Escapes R E] in
theorem onSubnodes_drives {α : Type} {x : Streaming SubnodeAllocator α}
    (h : Drives (Outer R) (Outer E) x) : Drives (Outer R) (Outer E) (onSubnodes x) :=
  h.onto (fun _ _ hr => hr) fun _ _ he => he

theorem setValue_drives (tag : Nat) (v : CellValue) :
    Drives (Outer R) (Outer E) (setValue tag v) := by
  have hcolumn : Drives (Outer R) (Outer E) (column tag) := by
    refine drives_get_bind fun p => ?_
    dsimp only
    split
    · exact drives_pure _ _
    · exact drives_throw _ _
  have hput (c : Column) (b : Bytes) : Drives (Outer R) (Outer E) (putCell c b) :=
    drives_modify fun p => refl (r := R) p.1
  have hfixed (b : Bytes) : Drives (Outer R) (Outer E) (setFixed tag b) :=
    drives_bind hcolumn fun c => hput c b
  have hstore (b : Bytes) : Drives (Outer R) (Outer E) (storeCell b) := by
    refine drives_ite (fun _ => drives_pure 0) fun _ => ?_
    refine drives_ite (fun _ => onHeap_drives (StreamingHeap.alloc_drives hblock b)) fun _ => ?_
    exact onSubnodes_drives (spill_drives hblock b)
  have hbinary (b : Bytes) : Drives (Outer R) (Outer E) (setBinary tag b) :=
    drives_bind hcolumn fun c => drives_bind (hstore b) fun _ => hput c _
  cases v with
  | string utf8 => exact hbinary _
  | binary data => exact hbinary data
  | _ => exact hfixed _

theorem flushRowBlock_drives (last : Bool) : Drives (Outer R) (Outer E) (flushRowBlock last) := by
  refine drives_get_bind fun p => drivesFrom_ite (fun _ => drives_pure _ _) fun _ => ?_
  refine drivesFrom_bind (drivesFrom_object _) fun _ => ?_
  refine drives_bind (onNdb_drives (hblock _ _)) fun bid => ?_
  exact drives_modify fun p => refl (r := R) p.1

theorem beginRow_drives (rowId : Nat) : Drives (Outer R) (Outer E) (beginRow rowId) := by
  refine drives_get_bind fun p => drivesFrom_ite (fun _ => drives_throw_bind _ _ _) fun _ => ?_
  refine drivesFrom_bind (drivesFrom_object _) fun _ => ?_
  exact drives_bind (setValue_drives hblock PidTagLtpRowId (.int32 rowId)) fun _ =>
    setValue_drives hblock PidTagLtpRowVer (.int32 1)

theorem endRow_drives : Drives (Outer R) (Outer E) endRow := by
  refine drives_get_bind fun p => drivesFrom_ite (fun _ => drives_throw_bind _ _ _) fun _ => ?_
  refine drivesFrom_bind (drivesFrom_object _) fun _ =>
    drives_ite (fun _ => ?_) fun _ => drives_modify fun q => refl (r := R) q.1
  exact drives_bind (flushRowBlock_drives hblock false) fun _ =>
    drives_modify fun q => refl (r := R) q.1

theorem writeRow_drives (r : RowCalls) : Drives (Outer R) (Outer E) (writeRow r) := by
  refine drives_bind (beginRow_drives hblock r.rowId) fun _ => ?_
  exact drives_bind (drives_each fun e _ => setValue_drives hblock e.1 e.2) fun _ =>
    endRow_drives hblock

theorem finish_drives (std : StdSort) : Drives (Outer R) (Outer E) (finish std) := by
  have hadopt : Drives (Outer R) (Outer E) adoptRows := by
    refine drives_get_bind fun p => drivesFrom_ite (fun _ => drives_pure _ _) fun _ => ?_
    refine drivesFrom_bind (onNdb_drives (assembleDataTree_drives hblock _ _) _) fun bid => ?_
    refine onSubnodes_drives (drives_get_bind fun q => ?_)
    exact drivesFrom_bind (drivesFrom_object _) fun _ => drives_pure _
  have hindex : Drives (Outer R) (Outer E) (buildIndex std) := by
    refine drives_get_bind fun p => drivesFrom_bind (drivesFrom_object _) fun _ => ?_
    exact onHeap_drives (buildBthInto_drives std (StreamingHeap.alloc_drives hblock) _ _ _)
  refine drives_bind (flushRowBlock_drives hblock true) fun _ => drives_bind hadopt fun _ => ?_
  refine drives_bind hindex fun _ => drives_get_bind fun p => ?_
  refine drivesFrom_bind (onHeap_drives (StreamingHeap.alloc_drives hblock _) _) fun root => ?_
  refine drives_bind (drives_modify fun p => refl (r := R) p.1) fun _ => ?_
  refine drives_bind (onHeap_drives (StreamingHeap.finish_drives hblock)) fun data => ?_
  refine drives_get_bind fun q => ?_
  exact drivesFrom_bind (onNdb_drives (writeSubnodes_drives hblock std _) _) fun _ => drives_pure _

end StreamingTable

/-! ## Messages -/

section

variable {S F : StoreWriter → StoreWriter → Prop} [Escapes S F]
  (hfile : ∀ s w, R s.ndb w → S s { s with ndb := w })
  (hfail : ∀ s w, E s.ndb w → F s { s with ndb := w })

include hfile hfail

omit hblock [Escapes R E] [Escapes S F] in
theorem onFile_drives {α : Type} {x : Ndb α} (h : Drives R E x) : Drives S F (onFile x) :=
  h.onto hfile hfail

omit hblock [Escapes R E] [Escapes S F] in
theorem onStreams_drives {α : Type} {x : Streaming SubnodeAllocator α}
    (h : Drives (Outer R) (Outer E) x) : Drives (Outer S) (Outer F) (onStreams x) :=
  h.onto (fun p q hr => hfile p.1 q.1 hr) fun p q he => hfail p.1 q.1 he

omit hblock [Escapes R E] hfile hfail in
theorem addSubnode_drives (nid : Nat) (n : NodeData) :
    Drives (Outer S) (Outer F) (addSubnode nid n) := drives_modify fun p => refl (r := S) p.1

theorem addTable_drives (std : StdSort) (nid : Nat) (columns : List Nat) (rows : List RowCalls) :
    Drives (Outer S) (Outer F) (addTable std nid columns rows) :=
  drives_bind (drives_onOuter (onFile_drives hfile hfail
    (TableContext.node_drives hblock std columns _))) fun n => addSubnode_drives nid n

section

variable (std : StdSort) (key : RecordKey)

/-- The messages embedded in an attachment go where messages go. -/
def InnerDrives (S F : StoreWriter → StoreWriter → Prop) (e : Option Message) : Prop :=
  ∀ inner, e = some inner → ∀ nid embedded,
    Drives (Outer S) (Outer F) (buildMessage std key nid embedded inner)

theorem storeContent_drives (data : Bytes) {e : Option Message} (h : InnerDrives std key S F e) :
    Drives (Outer S) (Outer F) (storeContent std key data e) := by
  cases e with
  | none =>
    exact drives_bind (onStreams_drives hfile hfail (spill_drives hblock _)) fun _ => drives_pure _
  | some inner =>
    refine drives_bind (drives_onOuter (drives_withLocal (h inner rfl _ _))) fun built => ?_
    refine drives_bind (drives_onOuter (onFile_drives hfile hfail
      (writeHeap_drives hblock std _ _))) fun n => ?_
    exact drives_bind (addSubnode_drives _ n) fun _ => drives_pure _

theorem buildAttachment_drives (i : Nat) {a : Attachment} (h : InnerDrives std key S F a.embedded) :
    Drives (Outer S) (Outer F) (buildAttachment std key i a) := by
  rw [buildAttachment_eq]
  refine drives_bind (drives_onOuter (drives_withLocal (drives_bind
    (storeContent_drives hblock hfile hfail std key _ h)
    fun content => onStreams_drives hfile hfail (serialize_drives hblock std _)))) fun built => ?_
  exact drives_bind (drives_onOuter (onFile_drives hfile hfail
    (writeHeap_drives hblock std _ _))) fun n => addSubnode_drives _ n

theorem buildAttachments_drives (i : Nat) {as : List Attachment}
    (h : ∀ a ∈ as, InnerDrives std key S F a.embedded) :
    Drives (Outer S) (Outer F) (buildAttachments std key i as) := by
  induction as generalizing i with
  | nil => exact drives_pure ()
  | cons a as ih =>
    exact drives_bind (buildAttachment_drives hblock hfile hfail std key i (h a List.mem_cons_self))
      fun _ => ih (i + 1) fun a' ha' => h a' (List.mem_cons_of_mem _ ha')

/-- Where a block takes the file and taking properties takes the names, a message takes both. -/
theorem buildMessage_drives
    (htake : ∀ nid embedded m, Drives S F (takeProperties key nid embedded m)) (m : Message)
    (nid : Nat) (embedded : Bool) :
    Drives (Outer S) (Outer F) (buildMessage std key nid embedded m) := by
  induction m using Message.induct generalizing nid embedded with
  | step m ih =>
    rw [buildMessage_eq]
    refine drives_bind (drives_onOuter (htake nid embedded m)) fun pc => ?_
    refine drives_bind (addTable_drives hblock hfile hfail std _ _ _) fun _ => ?_
    refine drives_bind (buildAttachments_drives hblock hfile hfail std key 0
      fun a ha inner hinner => ih a ha inner hinner) fun _ => ?_
    refine drives_bind (addTable_drives hblock hfile hfail std _ _ _) fun _ => ?_
    exact onStreams_drives hfile hfail (serialize_drives hblock std pc)

end

end

end

end Pst
end Imap2Pst
