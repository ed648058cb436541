import NoeDB.LsmCompaction
import NoeDB.LsmRecovery

/-! Crashes between the file operations of a flush and of a compaction. -/
namespace NoeDB.LsmCrash
open ByteString OrderedTable StorageTypes StorageTables LsmDirectory Compaction Fallible Lsm LsmTree LsmLevels List Directory Table
open LsmReads LsmCompaction LsmCalls LsmRecovery Wal

def Recovers (tree : LsmTree) (dir : Directory) : Prop :=
  ∃ next, openTree dir tree.config = .ok next ∧ ∀ key, next.get key = tree.get key

theorem recoversIff {dir next} (ok : openTree dir tree.config = .ok next) :
    Recovers tree dir ↔ ∀ key, next.get key = tree.get key := by
  simp [Recovers,ok]

theorem getCongr {a b : LsmTree} (active : a.active = b.active) (files0 : a.readers0 = b.readers0)
    (files1 : a.readers1 = b.readers1) (key) : a.get key = b.get key := by
  simp [LsmTree.get,getStored,findVisibleVersion,active,files0,files1]

def flushCrash (tree : LsmTree) (done : Nat) : Directory := (applyAll tree.dir (tree.flushSteps.take done)).crash

def withoutMemtable (tree : LsmTree) : LsmTree := {tree with active := .new}

theorem considerUnconcerned (none : ∀ r ∈ records, ¬Concerns key r) (best) :
    considerRecords view key best records = .ok best := by
  induction records with
  | nil => rfl
  | cons _ _ ih =>
    obtain ⟨here,later⟩ := forall_mem_cons.mp none
    rw [considerRecords,if_neg here]
    exact ih later

theorem getUnconcerned (none : ∀ r ∈ tree.active.iter, ¬Concerns key r) :
    (withoutMemtable tree).get key = tree.get key := by
  have absent : tree.active.map.find key = Option.none := by
    cases found : tree.active.map.find key with
    | none => rfl
    | some => exact absurd (.inr rfl) (none _ (memIff.mpr found))
  have held : (withoutMemtable tree).active.get key = tree.active.get key := by
    simp only [MemTable.get,absent]
    rfl
  have found : (withoutMemtable tree).findVisibleVersion key .latest = tree.findVisibleVersion key .latest := by
    have own : ∀ inside : Record → Bool, considerRecords .latest key Option.none
        (tree.active.map.entries.filter inside) = .ok Option.none :=
      fun inside => considerUnconcerned (fun r mem => none r (mem_of_mem_filter mem)) _
    simp only [findVisibleFlat,pointRecords,considerRecordsAppend,own]
    rfl
  simp only [LsmTree.get,held,getStored,found]
  rfl

/- A flush whose table file cannot be written. The memtable has been taken before, and what
the writer leaves behind stands in a file that no level lists. -/
def failedFlush (left : Directory) (fault : Fault) : Act Unit := do
  let tree ← MonadState.get
  modify fun tree => {tree with active := .new}
  if tree.active.isEmpty then return
  modify fun tree => {tree with dir := left}
  throw fault

def maybeFlushFails (left : Directory) (fault : Fault) : Act Unit := do
  let tree ← MonadState.get
  if tree.active.bytes < tree.config.maxMemBytes then return
  failedFlush left fault

structure Unlisted (tree : LsmTree) (left : Directory) : Prop where
  level0 : ∀ id ∈ tree.level0, left.level0Files.find id = tree.dir.level0Files.find id
  level1 : ∀ id ∈ tree.level1, left.level1Files.find id = tree.dir.level1Files.find id

def putFails (left : Directory) (fault : Fault) (key value : Bytes) : Act Unit := do
  putWrite key value
  maybeFlushFails left fault

def diskFull : Fault := .error (.io "No space left on device (os error 28)")

def fullTree : LsmTree := (execute (putWrite [97] [1]) (fresh flushing)).2

def versionsFirst (tree : LsmTree) (key : Bytes) (copy : Option Bytes) : Except Fault (Option Bytes) :=
  match tree.findVisibleVersion key .latest with
  | .error fault => .error fault
  | .ok (some ver) => .ok (shown ver)
  | .ok none => .ok copy

def ShortcutAgrees (tree : LsmTree) : Prop :=
  ∀ r ∈ tree.active.iter, tree.get r.1 = versionsFirst tree r.1 (some r.2)

instance (tree) : Decidable (ShortcutAgrees tree) := by unfold ShortcutAgrees; infer_instance

theorem flushStepsLength (tree : LsmTree) : tree.flushSteps.length = tree.flushedSegments.length+3 := by
  simp [flushSteps]

def fileWritten (tree : LsmTree) : Directory :=
  tree.dir.writeLevel0 (nextSstId tree.dir.level0Files) (.writeFromMemtable tree.active)

def deletes (ids : List Nat) : List (Directory → Directory) := ids.map fun id dir => dir.deleteSegment id

theorem flushPrefix (early : done < tree.flushSteps.length) :
    (done = 0 ∧ applyAll tree.dir (tree.flushSteps.take done) = tree.dir) ∨
    (done = 1 ∧ applyAll tree.dir (tree.flushSteps.take done) = fileWritten tree) ∨
    ∃ j ≤ tree.flushedSegments.length, done = j+2 ∧ applyAll tree.dir (tree.flushSteps.take done) =
      applyAll ((fileWritten tree).rotate tree.activeId) (deletes (tree.flushedSegments.take j)) := by
  rw [flushStepsLength] at early
  match done,early with
  | 0,_ => exact .inl ⟨rfl,rfl⟩
  | 1,_ => exact .inr (.inl ⟨rfl,rfl⟩)
  | j+2,early =>
    have enough : j ≤ tree.flushedSegments.length := by omega
    refine .inr (.inr ⟨j,enough,rfl,?_⟩)
    simp only [flushSteps,cons_append,take_succ_cons,applyAllCons,deletes,map_take]
    rw [take_append_of_le_length (by simpa using enough)]
    rfl

theorem deletesKeep (dir ids) :
    (applyAll dir (deletes ids)).manifest = dir.manifest ∧ (applyAll dir (deletes ids)).level0Files = dir.level0Files ∧
      (applyAll dir (deletes ids)).level1Files = dir.level1Files := by
  let delete : Nat → Directory → Directory := fun id dir => dir.deleteSegment id
  refine ⟨applyAllKeep manifest delete ?_ ids dir,applyAllKeep level0Files delete ?_ ids dir,
    applyAllKeep level1Files delete ?_ ids dir⟩
  all_goals exact fun _ _ => rfl

theorem flushPrefixFiles (early : done < tree.flushSteps.length) :
    (flushCrash tree done).manifest = tree.dir.manifest ∧ (flushCrash tree done).level1Files = tree.dir.level1Files ∧
      (flushCrash tree done).level0Files = if done = 0 then tree.dir.level0Files else
        tree.dir.level0Files.insert (nextSstId tree.dir.level0Files) (.writeFromMemtable tree.active) := by
  simp only [flushCrash,crash]
  rcases flushPrefix early with ⟨rfl,same⟩ | ⟨rfl,same⟩ | ⟨j,-,rfl,same⟩
  · exact ⟨by rw [same],by rw [same],by rw [same,if_pos rfl]⟩
  · exact ⟨by rw [same]; rfl,by rw [same]; rfl,by rw [same]; rfl⟩
  · obtain ⟨manifest,files0,files1⟩ := deletesKeep ((fileWritten tree).rotate tree.activeId)
      (tree.flushedSegments.take j)
    obtain ⟨rotated0,rotated1,rotated⟩ := rotateParts (fileWritten tree) tree.activeId
    rw [same,manifest,files0,files1,rotated0,rotated1,rotated]
    exact ⟨rfl,rfl,rfl⟩

theorem crashSegments (dir : Directory) :
    dir.crash.segments.entries = dir.segments.entries.map fun e => (e.1,e.2.crash) := rfl

section
variable {tree : LsmTree} {seg : Segment} {records : List LogEntry}

theorem flushKeepsLog (stored : Stored tree seg records) (every : tree.config.walSync = .everyAppend)
    (early : done+1 < tree.flushSteps.length) :
    replayAll .new (flushCrash tree done).segments.entries = .ok tree.active := by
  have whole : seg.crash.content = logOf records := by
    rw [← stored.content,Segment.crash,stored.durable every,take_length]
  have synced : seg.sync.crash.content = logOf records := by
    rw [← stored.content,Segment.crash,Segment.sync,take_length]
  have empty : Segment.new.crash.content = logOf [] := rfl
  have none : readAll (logOf []) = .ok [] := readLog (by simp)
  rw [flushCrash,crashSegments]
  rcases flushPrefix (by omega : done < tree.flushSteps.length) with ⟨-,same⟩ | ⟨-,same⟩ | ⟨j,-,rfl,same⟩
  · simp [same,stored.segments,map_cons,map_nil,replayAll,whole,readLog stored.fits,stored.replays]
  · have segments : (fileWritten tree).segments.entries = [(tree.activeId,seg)] := stored.segments
    simp [same,segments,map_cons,map_nil,replayAll,whole,readLog stored.fits,stored.replays]
  · have segments : (fileWritten tree).segments.entries = [(tree.activeId,seg)] := stored.segments
    rw [flushStepsLength] at early
    have kept : (applyAll ((fileWritten tree).rotate tree.activeId)
        (deletes (tree.flushedSegments.take j))).segments.entries = [(tree.activeId,seg.sync),(tree.activeId+1,.new)] := by
      rw [deletes,deletedSegments,rotateSingle segments]
      have ids : ∀ id ∈ tree.flushedSegments.take j, id < tree.activeId := by
        intro _ mem
        obtain ⟨i,bound,rfl⟩ := mem_take_iff_getElem.mp mem
        simp only [flushedSegments,length_range',getElem_range'] at early bound ⊢
        omega
      have here : tree.activeId ∉ tree.flushedSegments.take j := fun mem => lt_irrefl _ (ids _ mem)
      have next : tree.activeId+1 ∉ tree.flushedSegments.take j := fun mem => by
        have below := ids _ mem
        omega
      simp [here,next]
    simp only [same,kept,map_cons,map_nil,replayAll,synced,readLog stored.fits,stored.replays,empty,none]
    rfl

theorem flushEndsLog (stored : Stored tree seg records) (last : done+1 = tree.flushSteps.length) :
    replayAll .new (flushCrash tree done).segments.entries = .ok .new := by
  rw [flushStepsLength] at last
  obtain rfl : done = tree.flushedSegments.length+2 := by omega
  have early : tree.flushedSegments.length+2 < tree.flushSteps.length := by
    rw [flushStepsLength]
    omega
  have segments : (fileWritten tree).segments.entries = [(tree.activeId,seg)] := stored.segments
  rw [flushCrash,crashSegments]
  rcases flushPrefix early with ⟨_,-⟩ | ⟨_,-⟩ | ⟨j,-,_,same⟩
  · omega
  · omega
  · obtain rfl : j = tree.flushedSegments.length := by omega
    rw [same,deletes,deletedSegments,rotateSingle segments,take_length]
    have here : tree.activeId ∈ tree.flushedSegments := (flushedSegmentsMem stored.flushed).mpr ⟨stored.flushed,le_refl _⟩
    have next : tree.activeId+1 ∉ tree.flushedSegments := fun mem => by
      have bound := ((flushedSegmentsMem stored.flushed).mp mem).2
      omega
    have empty : Segment.new.crash.content = logOf [] := rfl
    have none : readAll (logOf []) = .ok [] := readLog (by simp)
    simp only [filter_cons,here,next,not_true_eq_false,not_false_eq_true,decide_false,decide_true,
      Bool.false_eq_true,if_false,if_true,filter_nil,map_cons,map_nil,replayAll,empty,none]
    rfl

theorem flushReaders (stored : Stored tree seg records) (early : done < tree.flushSteps.length)
    {active next} (opened : Opened (flushCrash tree done) active next) :
    (tree.dir.manifest ≠ none → next.readers0 = tree.readers0 ∧ next.readers1 = tree.readers1) ∧
      (tree.dir.manifest = none → tree.readers0 = [] ∧ tree.readers1 = [] ∧ next.readers1 = [] ∧
        next.readers0 = if done = 0 then [] else [some (.writeFromMemtable tree.active)]) := by
  obtain ⟨manifest,files1,files0⟩ := flushPrefixFiles early
  obtain ⟨_,_,levels⟩ := stored.levels
  have opened0 := opened.level0
  have opened1 := opened.level1
  rw [manifest] at opened0 opened1
  rcases stored.recorded with named | ⟨unnamed,empty0,empty1,none0,none1,-⟩
  · rw [named] at opened0 opened1
    refine ⟨fun _ => ⟨?_,?_⟩,fun absent => by simp [named] at absent⟩
    · rw [readers0,opened.files0,opened0,files0]
      split
      · rfl
      · exact readersKeep levels.level0 _
    · rw [readers1,opened.files1,opened1,files1]
      rfl
  · rw [unnamed] at opened0 opened1
    refine ⟨fun there => absurd unnamed there,fun _ => ⟨by simp [readers0,none0],by simp [readers1,none1],?_,?_⟩⟩
    · rw [readers1,opened.files1,opened1,files1,empty1]
      rfl
    · rw [readers0,opened.files0,opened0,files0,empty0]
      split <;> rfl

theorem frozenWindow (ranged : tree.active.range key (userKeyPrefixEnd key) = .ok found) :
    (Sst.writeFromMemtable tree.active).scanRange key (userKeyPrefixEnd key) = found := by
  unfold MemTable.range at ranged
  split at ranged <;> cases ranged
  rfl

theorem copyHidden {next : LsmTree} (active : next.active = tree.active) (none0 : tree.readers0 = [])
    (none1 : tree.readers1 = []) (copy : next.readers0 = [some (.writeFromMemtable tree.active)])
    (rest : next.readers1 = []) (key) : next.get key = tree.get key := by
  have versions : next.findVisibleVersion key .latest = tree.findVisibleVersion key .latest := by
    simp only [findVisibleVersion,active,copy,rest,none0,none1]
    cases ranged : tree.active.range key (userKeyPrefixEnd key) with
    | error => rfl
    | ok found =>
      cases considered : considerRecords .latest key none found with
      | error => simp [considered]
      | ok =>
        simp [considered,reverse_nil,append_nil,considerFiles,          frozenWindow ranged,considerTwice considered]
  have stored : tree.active.map.find key = none → next.getStored key = tree.getStored key := by
    intro absent
    have missing : (Sst.writeFromMemtable tree.active).get key = none := absent
    simp [getStored,versions,copy,rest,none0,none1,firstCopy,missing]
  have undecoded : ∀ {value fault}, tree.active.map.find key = some value → decodeOrLegacy value = .error fault →
      next.getStored key = tree.getStored key := by
    intro value fault held failed
    have searched : ∃ fault, tree.findVisibleVersion key .latest = .error fault := undecodedFails held failed
    obtain ⟨_,found⟩ := searched
    simp [getStored,versions,found]
  simp only [LsmTree.get,active,MemTable.get]
  cases MemTable.validateKey key with
  | error => rfl
  | ok =>
    cases held : tree.active.map.find key with
    | none => exact stored held
    | some value =>
      simp only
      split
      · cases decoded : decodeOrLegacy value with
        | ok => rfl
        | error => exact undecoded held decoded
      · rfl

theorem frozenGet {next : LsmTree} (active : next.active = .new) (none0 : tree.readers0 = [])
    (none1 : tree.readers1 = []) (copy : next.readers0 = [some (.writeFromMemtable tree.active)])
    (rest : next.readers1 = []) : (∀ key, next.get key = tree.get key) ↔ ShortcutAgrees tree := by
  have versions : ∀ key, next.findVisibleVersion key .latest = tree.findVisibleVersion key .latest := by
    intro key
    simp only [findVisibleVersion,active,copy,rest,none0,none1]
    cases ranged : tree.active.range key (userKeyPrefixEnd key) with
    | error =>
      unfold MemTable.range at ranged ⊢
      split at ranged <;> cases ranged
      rename_i above
      rw [if_pos above]
    | ok =>
      have empty : MemTable.new.range key (userKeyPrefixEnd key) = .ok [] := by
        unfold MemTable.range at ranged ⊢
        split at ranged <;> cases ranged
        rename_i above
        rw [if_neg above]
        rfl
      simp [empty,considerRecords,reverse_nil,append_nil,considerFiles, frozenWindow ranged]
  have after : ∀ key, key ≠ [] → next.get key = versionsFirst tree key (tree.active.map.find key) := by
    intro key named
    have copied : firstCopy key [some (.writeFromMemtable tree.active)] = .ok (tree.active.map.find key) := by
      have same : (Sst.writeFromMemtable tree.active).get key = tree.active.map.find key := rfl
      simp only [firstCopy,same]
      cases tree.active.map.find key <;> rfl
    have absent : next.active.get key = .ok none := by
      rw [active]
      simp [MemTable.get,MemTable.validateKey,named,MemTable.new]
    simp only [LsmTree.get,absent,getStored,versions,copy,rest,reverse_singleton,reverse_nil, append_nil,copied]
    unfold versionsFirst
    cases tree.findVisibleVersion key .latest with
    | error => rfl
    | ok best => cases best <;> rfl
  constructor
  · intro same r mem
    have held : tree.active.map.find r.1 = some r.2 := memIff.mp mem
    rw [← same,after r.1 (tree.active.named r mem),held]
  · intro agrees key
    by_cases named : key = []
    · simp [LsmTree.get,MemTable.get,MemTable.validateKey,named]
    · rw [after key named]
      cases held : tree.active.map.find key with
      | some value =>
        exact (agrees (key,value) (memIff.mpr held)).symm
      | none =>
        have absent : tree.active.get key = .ok none := by
          simp [MemTable.get,MemTable.validateKey,named,held]
        simp only [LsmTree.get,absent,getStored,none0,none1,versionsFirst]
        cases tree.findVisibleVersion key .latest with
        | error => rfl
        | ok best => cases best <;> rfl

end

def oneFlushed : LsmTree := (execute (put [97] [1]) (fresh flushing)).2

def secondWritten : LsmTree := (execute (putWrite [98] [2]) oneFlushed).2

def compactionCrash (tree : LsmTree) (merged : Sst) (done : Nat) : Directory :=
  applyAll tree.dir ((tree.compactionSteps merged).take done)

theorem compactionStepsLength (tree : LsmTree) (merged) :
    (tree.compactionSteps merged).length = tree.level0.length+2 := by
  simp [compactionSteps]

def removals (ids : List Nat) : List (Directory → Directory) := ids.map fun id dir => dir.removeLevel0 id

theorem compactionPrefix (early : done < (tree.compactionSteps merged).length) :
    (done = 0 ∧ compactionCrash tree merged done = tree.dir) ∨ ∃ j, done = j+1 ∧ compactionCrash tree merged done =
      applyAll (tree.dir.writeLevel1 (nextSstId tree.dir.level1Files) merged) (removals (tree.level0.take j)) := by
  rw [compactionStepsLength] at early
  match done,early with
  | 0,_ => exact .inl ⟨rfl,rfl⟩
  | j+1,early =>
    have enough : j ≤ tree.level0.length := by omega
    refine .inr ⟨j,rfl,?_⟩
    simp only [compactionCrash,compactionSteps,cons_append,take_succ_cons,applyAllCons,removals, map_take]
    rw [take_append_of_le_length (by simpa using enough)]

theorem removalsFind (dir ids id) :
    (applyAll dir (removals ids)).level0Files.find id = if id ∈ ids then none else dir.level0Files.find id := by
  induction ids generalizing dir with
  | nil => simp [removals,applyAll]
  | cons first rest ih =>
    refine (ih _).trans ?_
    simp only [removeLevel0,findErase,mem_cons]
    by_cases here : id ∈ rest
    · simp [here]
    · by_cases same : first = id
      · simp [same]
      · simp [here,same,Ne.symm same]

theorem removalsKeep (dir ids) :
    (applyAll dir (removals ids)).manifest = dir.manifest ∧ (applyAll dir (removals ids)).segments = dir.segments ∧
      (applyAll dir (removals ids)).level1Files = dir.level1Files := by
  let remove : Nat → Directory → Directory := fun id dir => dir.removeLevel0 id
  refine ⟨applyAllKeep manifest remove ?_ ids dir,applyAllKeep segments remove ?_ ids dir,
    applyAllKeep level1Files remove ?_ ids dir⟩
  all_goals exact fun _ _ => rfl

section
variable {key : Bytes} {view : ReadView}

structure Absent (key : Bytes) (tree : LsmTree) : Prop where
  named : key ≠ []
  zeros : ∀ b ∈ key, b = 0
  active : ∀ r ∈ tree.active.iter, r.1.length < key.length
  files : ∀ sst, some sst ∈ tree.readers0 ++ tree.readers1 → ∀ r ∈ sst.scan, r.1.length < key.length

theorem Absent.reversed (absent : Absent key tree) :
    ∀ sst, some sst ∈ tree.readers0.reverse ++ tree.readers1.reverse → ∀ r ∈ sst.scan, r.1.length < key.length :=
  fun sst mem => absent.files sst (by simpa using mem)

theorem absentConcerns (short : r.1.length < key.length) : ¬Concerns key r := by
  rintro (same | same)
  · have length := congrArg List.length same
    simp only [decodeUserKey,length_take] at length
    omega
  · rw [same] at short
    exact lt_irrefl _ short

theorem findAbsent (absent : Absent key tree) : tree.findVisibleVersion key view = .ok none := by
  obtain ⟨b,mem⟩ := exists_mem_of_ne_nil key absent.named
  have searchable : ¬userKeyPrefixEnd key < key := by
    refine (searchableIff absent.named).mpr fun none => ?_
    exact absurd ((followingNone.mp none b mem).symm.trans (absent.zeros b mem)) (by decide)
  rw [findVisibleFlat,if_neg searchable]
  refine considerUnconcerned (fun r mem => absentConcerns ?_) none
  rcases mem_append.mp (memPoint.mp mem).1 with stored | own
  · obtain ⟨sst,there,held,-⟩ := memStored.mp stored
    exact absent.files sst (mem_append.mpr (mem_append.mp there).symm) r (memIff.mpr held)
  · exact absent.active r own

theorem heldShort {sst : Sst} (short : ∀ r ∈ sst.scan, r.1.length < key.length) : sst.get key = none := by
  cases held : sst.get key with
  | none => rfl
  | some => exact absurd (short _ (memIff.mpr held)) (lt_irrefl _)

theorem firstCopyAbsent {files : List (Option Sst)}
    (short : ∀ sst, some sst ∈ files → ∀ r ∈ sst.scan, r.1.length < key.length) :
    firstCopy key files = if none ∈ files then .error missingFile else .ok none := by
  induction files with
  | nil => rfl
  | cons file _ ih =>
    have later := ih fun sst mem => short sst (mem_cons_of_mem _ mem)
    cases file with
    | none => simp [firstCopy]
    | some sst => simp [firstCopy,heldShort (short sst mem_cons_self),later]

theorem getAbsent (absent : Absent key tree) :
    tree.get key = if none ∈ tree.readers0 ++ tree.readers1 then .error missingFile else .ok none := by
  have held : tree.active.get key = .ok none := by
    cases found : tree.active.map.find key with
    | none => simp [MemTable.get,MemTable.validateKey,absent.named,found]
    | some => exact absurd (absent.active _ (memIff.mpr found)) (lt_irrefl _)
  simp [LsmTree.get,held,getStored,findAbsent absent,firstCopyAbsent absent.reversed,mem_append,mem_reverse]

theorem absentExists (tree) : ∃ key, Absent key tree := by
  let lengths := (tree.active.iter ++ (tree.readers0 ++ tree.readers1).reduceOption.flatMap Sst.scan).map
    fun r => r.1.length
  have bound : ∀ n ∈ lengths, n < lengths.foldl max 0+1 := fun n mem =>
    Nat.lt_succ_of_le ((leFoldMax lengths 0).2 n mem)
  refine ⟨List.replicate (lengths.foldl max 0+1) 0,by simp,fun b => eq_of_mem_replicate,fun r mem => ?_,
    fun sst file r mem => ?_⟩
  · rw [length_replicate]
    exact bound _ (mem_map.mpr ⟨r,mem_append_left _ mem,rfl⟩)
  · rw [length_replicate]
    refine bound _ (mem_map.mpr ⟨r,mem_append_right _ (mem_flatMap.mpr ⟨sst,?_,mem⟩),rfl⟩)
    exact mem_filterMap.mpr ⟨some sst,file,rfl⟩

end

theorem removedReaders {tree next : LsmTree} (level0 : next.level0 = tree.level0)
    (found : ∀ id, next.dir.level0Files.find id = if id ∈ gone then none else tree.dir.level0Files.find id) :
    (∀ sst, some sst ∈ next.readers0 → some sst ∈ tree.readers0) ∧ (∀ id ∈ tree.level0, id ∈ gone → none ∈ next.readers0) ∧
      (gone = [] → next.readers0 = tree.readers0) := by
  refine ⟨fun sst mem => ?_,fun id mem lost => ?_,fun nothing => ?_⟩
  · obtain ⟨id,inside,there⟩ := mem_map.mp mem
    rw [found] at there
    split at there
    · cases there
    · exact mem_map.mpr ⟨id,level0 ▸ inside,there⟩
  · refine mem_map.mpr ⟨id,level0 ▸ mem,?_⟩
    rw [found,if_pos lost]
  · rw [readers0,readers0,level0]
    exact map_congr_left fun id _ => by simp [found,nothing]

theorem missingShows {tree next : LsmTree} (active : next.active = tree.active)
    (subset : ∀ sst, some sst ∈ next.readers0 → some sst ∈ tree.readers0) (same : next.readers1 = tree.readers1)
    (complete : none ∉ tree.readers0 ++ tree.readers1) (missing : none ∈ next.readers0) :
    ¬∀ key, next.get key = tree.get key := by
  intro reads
  obtain ⟨key,absent⟩ := absentExists tree
  have absent' : Absent key next := by
    refine ⟨absent.named,absent.zeros,active ▸ absent.active,fun sst mem => absent.files sst ?_⟩
    rcases mem_append.mp mem with first | second
    · exact mem_append_left _ (subset sst first)
    · exact mem_append_right _ (same ▸ second)
  have equal := reads key
  rw [getAbsent absent',getAbsent absent,if_pos (mem_append_left _ missing),if_neg complete] at equal
  cases equal

theorem compactionCrashed {tree : LsmTree}
    (stored : Stored tree seg records) (merges : compactLevel0ToL1 tree.readers0 = .ok merged)
    (early : done < (tree.compactionSteps merged).length) :
    Recovers tree (compactionCrash tree merged done) ↔ done ≤ 1 := by
  obtain ⟨_,_,levels⟩ := stored.levels
  have some' : tree.level0 ≠ [] := by
    intro none
    simp [readers0,none,compactLevel0ToL1] at merges
  have named : tree.dir.manifest = some tree.manifestOf := by
    rcases stored.recorded with named | ⟨-,-,-,none,-⟩
    · exact named
    · exact absurd none some'
  rcases compactionPrefix early with ⟨rfl,same⟩ | ⟨j,rfl,same⟩
  · rw [same]
    refine iff_of_true ⟨_,openStored stored _,?_⟩ (Nat.zero_le _)
    intro _
    rfl
  · obtain ⟨manifest,segments,files1⟩ := removalsKeep
      (tree.dir.writeLevel1 (nextSstId tree.dir.level1Files) merged) (tree.level0.take j)
    rw [← same] at manifest segments files1
    have replayed : replayAll .new (compactionCrash tree merged (j+1)).segments.entries = .ok tree.active := by
      rw [segments]
      exact stored.replayed
    obtain ⟨next,ok,opened⟩ := openReplayed replayed tree.config
    have kept : (compactionCrash tree merged (j+1)).manifest = some tree.manifestOf := manifest.trans named
    have level0 : next.level0 = tree.level0 := by
      rw [opened.level0,kept]
      rfl
    have level1 : next.level1 = tree.level1 := by
      rw [opened.level1,kept]
      rfl
    have found : ∀ id, next.dir.level0Files.find id =
        if id ∈ tree.level0.take j then none else tree.dir.level0Files.find id := by
      intro _
      rw [opened.files0,same,removalsFind]
      rfl
    have readers1 : next.readers1 = tree.readers1 := by
      rw [LsmTree.readers1,level1,opened.files1,files1]
      exact readersKeep levels.level1 _
    obtain ⟨subset,lost,whole⟩ := removedReaders level0 found
    constructor
    · rintro ⟨_,ok',reads⟩
      rw [ok] at ok'
      cases ok'
      by_contra removed
      have missing : none ∈ next.readers0 := by
        obtain ⟨first,_,shape⟩ := exists_cons_of_ne_nil some'
        obtain ⟨k,rfl⟩ : ∃ k, j = k+1 := ⟨j-1,by omega⟩
        refine lost first (by simp [shape]) ?_
        rw [shape,take_succ_cons]
        exact mem_cons_self
      have complete : none ∉ tree.readers0 ++ tree.readers1 := by
        simp [levels.level0,levels.level1]
      exact missingShows opened.active subset readers1 complete missing reads
    · intro _
      obtain rfl : j = 0 := by omega
      exact ⟨next,ok,getCongr opened.active (whole rfl) readers1⟩

theorem compactionCrashReads {config : LsmConfig} {calls : List Call} {call : Call} {before tree : LsmTree}
    {merged : Sst} (loggable : ∀ c ∈ call :: calls, Loggable c)
    (reached : Execution.run step (fresh config) calls = some before) (enters : Enters before call tree)
    (merges : compactLevel0ToL1 (afterFlush tree).readers0 = .ok merged) {done : Nat}
    (early : done < ((afterFlush tree).compactionSteps merged).length) :
    Recovers (afterFlush tree) (compactionCrash (afterFlush tree) merged done) ↔ done ≤ 1 := by
  obtain ⟨here,earlier⟩ := forall_mem_cons.mp loggable
  have moves := ((runMoves earlier reached).trans (entersMoves here enters)).trans (afterFlushMoves tree)
  obtain ⟨_,_,stored⟩ := storedMoves (storedFresh config) moves
  exact compactionCrashed stored merges early

def pairing : LsmConfig := ⟨1,2,.everyAppend,1,.default⟩

def firstOfTwo : LsmTree := (execute (put [97] [1]) (fresh pairing)).2

def secondOfTwo : LsmTree := (execute (putWrite [98] [2]) firstOfTwo).2

def mergedTwo : Sst :=
  ((compactLevel0ToL1 (afterFlush secondOfTwo).readers0).toOption).getD (.writeFromMemtable .new)

theorem compactionCrashAfterWrite :
    Recovers (afterFlush secondOfTwo) (compactionCrash (afterFlush secondOfTwo) mergedTwo 1) := by
  have loggable : ∀ c ∈ [Call.put [98] [2],.put [97] [1]], Loggable c := by decide
  have reached : Execution.run step (fresh pairing) [.put [97] [1]] = some firstOfTwo := by decide +kernel
  have entered : Returns (putWrite [98] [2]) firstOfTwo () secondOfTwo := by
    unfold Returns
    decide +kernel
  have merges : compactLevel0ToL1 (afterFlush secondOfTwo).readers0 = .ok mergedTwo := by decide +kernel
  have early : 1 < ((afterFlush secondOfTwo).compactionSteps mergedTwo).length := by decide +kernel
  exact (compactionCrashReads loggable reached (.put entered) merges early).mpr (le_refl _)

/- Compaction of two files, crashed after the first of them is removed: reading a key
that is in neither file fails. -/
theorem compactionCrashBreaksReads : Execution.run step (fresh pairing) [.put [97] [1]] = some firstOfTwo ∧
      execute (putWrite [98] [2]) firstOfTwo = (.ok (),secondOfTwo) ∧ pairing.maxMemBytes ≤ secondOfTwo.active.bytes ∧
      pairing.l0CompactionTrigger ≤ (afterFlush secondOfTwo).level0.length ∧
      (afterFlush secondOfTwo).get [99] = .ok none ∧
      (openTree (compactionCrash (afterFlush secondOfTwo) mergedTwo 2) pairing).toOption.map (·.get [99]) =
        some (.error missingFile) := by
  decide +kernel

end NoeDB.LsmCrash
