import NoeDB.Fallible
import NoeDB.LsmDirectory
import NoeDB.Compaction
import NoeDB.NewestPerKey

/-! The storage engine (lsm.rs, lsm_mvcc.rs) over its data directory. File operations
succeed; a read fails only where its file is missing. -/
namespace NoeDB.Lsm
open ByteString StorageTypes StorageTables LsmDirectory Compaction NewestPerKey Fallible

structure WriteStallConfig where
  l0SlowdownTrigger : Nat
  l0StopTrigger : Nat
  slowdownMsPerFile : Nat
  maxSlowdownMs : Nat
  deriving DecidableEq, Repr

def WriteStallConfig.default : WriteStallConfig := ⟨3,8,8,250⟩
def WriteStallConfig.relaxed : WriteStallConfig := ⟨12,32,4,500⟩

structure LsmConfig where
  maxMemBytes : Nat
  l0CompactionTrigger : Nat
  walSync : WalSyncMode
  walBatchSize : Nat
  writeStall : WriteStallConfig
  deriving DecidableEq, Repr

def LsmConfig.default : LsmConfig := ⟨4*1024*1024,4,.everyAppend,1,.default⟩
def LsmConfig.throughput : LsmConfig := ⟨16*1024*1024,64,.onFlush,256,.relaxed⟩

structure LsmTree where
  dir : Directory
  activeId : Nat
  active : MemTable
  level0 : List Nat
  level1 : List Nat
  config : LsmConfig
  flushedWalSegment : Nat
  walPending : Nat
  manifestSeq : Nat
  deriving DecidableEq

abbrev Act := Program LsmTree Fault

def consider (view : ReadView) (best : Option Version) (ver : Version) : Option Version :=
  if view.isVisible ver none then
    match best with
    | none => some ver
    | some b => if b.commitTs < ver.commitTs then some ver else some b
  else best

def Concerns (userKey : Bytes) (record : Record) : Prop :=
  decodeUserKey record.1 = userKey ∨ record.1 = userKey

instance (userKey record) : Decidable (Concerns userKey record) := inferInstanceAs (Decidable (_ ∨ _))

def considerRecords (view : ReadView) (userKey : Bytes) :
    Option Version → List Record → Except Fault (Option Version)
  | best,[] => .ok best
  | best,record :: rest =>
      if Concerns userKey record then
        match decodeOrLegacy record.2 with
        | .error fault => .error fault
        | .ok ver => considerRecords view userKey (consider view best ver) rest
      else considerRecords view userKey best rest

/- The table files in turn; one that cannot be opened is passed over. -/
def considerFiles (view : ReadView) (userKey : Bytes) :
    Option Version → List (Option Sst) → Except Fault (Option Version)
  | best,[] => .ok best
  | best,none :: rest => considerFiles view userKey best rest
  | best,some sst :: rest =>
      match considerRecords view userKey best (sst.scanRange userKey (userKeyPrefixEnd userKey)) with
      | .error fault => .error fault
      | .ok next => considerFiles view userKey next rest

def firstCopy (key : Bytes) : List (Option Sst) → Except Fault (Option Bytes)
  | [] => .ok none
  | none :: _ => .error missingFile
  | some sst :: rest =>
      match sst.get key with
      | some value => .ok (some value)
      | none => firstCopy key rest

def shown (ver : Version) : Option Bytes := if ver.deleted then none else some ver.value

def scanWindows (start stop : Bytes) : List (Bytes × Bytes) :=
  if stop = [] then [(start,List.replicate 64 255)]
  else (start,stop) :: ((List.range stop.length).drop 1).filterMap fun plen =>
    let p := stop.take plen
    if start ≤ p ∧ p < stop then some (p,p ++ List.replicate 9 255) else none

section
variable {ω : Type} (view : ReadView) (bounds : Option (Bytes × Bytes)) (wrap : Bytes → ω)

def outside (user : Bytes) : Bool :=
  match bounds with
  | none => false
  | some (start,stop) => user < start ∨ (stop ≠ [] ∧ stop ≤ user)

def ingest (record : Record) : Option (Candidate Bytes CommitTs (Bool × ω)) :=
  let isMvcc : Bool := Marked record.2 ∧ 8 < record.1.length
  let parts := if isMvcc then decodeVersionRef record.2 else some (1,false,record.2)
  match parts with
  | none => none
  | some (commitTs,deleted,value) =>
      let user := if isMvcc then decodeUserKey record.1 else record.1
      if outside bounds user then none
      else if commitTs = 0 ∨ view.snapshotTs < commitTs then none
      else some ⟨user,commitTs,deleted,wrap value⟩

def fileRecords (sst : Sst) : List Record :=
  match bounds with
  | none => sst.scan
  | some (start,stop) => (scanWindows start stop).flatMap fun w => sst.scanRange w.1 w.2

def windowRecords (table : MemTable) : List (Bytes × Bytes) → Except Fault (List Record)
  | [] => .ok []
  | w :: rest =>
      match table.range w.1 w.2 with
      | .error fault => .error fault
      | .ok records =>
          match windowRecords table rest with
          | .error fault => .error fault
          | .ok more => .ok (records ++ more)

def activeRecords (table : MemTable) : Except Fault (List Record) :=
  match bounds with
  | none => .ok table.iter
  | some (start,stop) => windowRecords table (scanWindows start stop)

end

def applyAll (dir : Directory) (steps : List (Directory → Directory)) : Directory :=
  steps.foldl (fun dir step => step dir) dir

namespace LsmTree

def openTree (dir : Directory) (config : LsmConfig) : Except Fault LsmTree :=
  match replayAll .new dir.segments.entries with
  | .error fault => .error fault
  | .ok active =>
      let activeId := dir.current.getD 1
      .ok {
        dir := dir.openSegment activeId
        activeId
        active
        level0 := match dir.manifest with
          | some m => m.level0
          | none => dir.level0Files.keys
        level1 := match dir.manifest with
          | some m => m.level1
          | none => dir.level1Files.keys
        config
        flushedWalSegment := 0
        walPending := 0
        manifestSeq := match dir.manifest with
          | some m => m.sequence
          | none => 0 }

def fresh (config : LsmConfig) : LsmTree :=
  ⟨Directory.empty.openSegment 1,1,.new,[],[],config,0,0,0⟩

def readers0 (tree : LsmTree) : List (Option Sst) := tree.level0.map tree.dir.level0Files.find
def readers1 (tree : LsmTree) : List (Option Sst) := tree.level1.map tree.dir.level1Files.find

def findVisibleVersion (tree : LsmTree) (userKey : Bytes) (view : ReadView) : Except Fault (Option Version) :=
  match tree.active.range userKey (userKeyPrefixEnd userKey) with
  | .error fault => .error fault
  | .ok records =>
      match considerRecords view userKey none records with
      | .error fault => .error fault
      | .ok best => considerFiles view userKey best (tree.readers0.reverse ++ tree.readers1.reverse)

def getVisible (tree : LsmTree) (userKey : Bytes) (view : ReadView) : Except Fault (Option Bytes) :=
  match tree.findVisibleVersion userKey view with
  | .error fault => .error fault
  | .ok best => .ok (best.bind shown)

def getStored (tree : LsmTree) (key : Bytes) : Except Fault (Option Bytes) :=
  match tree.findVisibleVersion key .latest with
  | .error fault => .error fault
  | .ok (some ver) => .ok (shown ver)
  | .ok none => firstCopy key (tree.readers0.reverse ++ tree.readers1.reverse)

def get (tree : LsmTree) (key : Bytes) : Except Fault (Option Bytes) :=
  match tree.active.get key with
  | .error fault => .error fault
  | .ok none => tree.getStored key
  | .ok (some raw) =>
      if Marked raw then
        match decodeOrLegacy raw with
        | .ok ver => .ok (shown ver)
        | .error _ => tree.getStored key
      else .ok (some raw)

section
variable {ω : Type} (sorter : Sorter) (tree : LsmTree) (view : ReadView) (bounds : Option (Bytes × Bytes))

def storedRecords : List Record :=
  (tree.readers1 ++ tree.readers0).flatMap fun reader =>
    match reader with
    | none => []
    | some sst => fileRecords bounds sst

def mergeVisibleFold (wrap : Bytes → ω) : Except Fault (List (Candidate Bytes CommitTs (Bool × ω))) :=
  match activeRecords bounds tree.active with
  | .error fault => .error fault
  | .ok records =>
      .ok (newestOf sorter ((storedRecords tree bounds ++ records).filterMap (ingest view bounds wrap)))

def live (merged : List (Candidate Bytes CommitTs (Bool × ω))) : List (Bytes × ω) :=
  merged.filterMap fun c => if c.payload.1 then none else some (c.key,c.payload.2)

def mergeVisibleAt : Except Fault (List Record) :=
  match mergeVisibleFold sorter tree view bounds id with
  | .error fault => .error fault
  | .ok merged => .ok (live merged)

end

def iter (sorter : Sorter) (tree : LsmTree) : Except Fault (List Record) :=
  mergeVisibleAt sorter tree .latest none

def rangeVisible (sorter : Sorter) (tree : LsmTree) (start stop : Bytes) (view : ReadView) :
    Except Fault (List Record) :=
  mergeVisibleAt sorter tree view (some (start,stop))

def rangeVisibleKeys (sorter : Sorter) (tree : LsmTree) (start stop : Bytes) (view : ReadView) :
    Except Fault (List Bytes) :=
  match mergeVisibleFold sorter tree view (some (start,stop)) fun _ => () with
  | .error fault => .error fault
  | .ok merged => .ok ((live merged).map Prod.fst)

/- The write stall either stops a write or delays it. -/
def gateWrite : Act Unit := do
  let tree ← MonadState.get
  if tree.config.writeStall.l0StopTrigger ≤ tree.level0.length then
    throw (.error (.resourceExhausted "L0 SST backlog at stop threshold — compaction required"))

def walAppend (entry : LogEntry) : Act Unit := do
  let bytes ← attempt (Wal.encode entry)
  modify fun tree => {tree with
    dir := tree.dir.changeSegment tree.activeId fun seg => seg.append bytes (tree.config.walSync = .everyAppend) }

def sync : Act Unit :=
  modify fun tree => {tree with dir := tree.dir.changeSegment tree.activeId Segment.sync, walPending := 0}

def countPending : Act Unit := modify fun tree => {tree with walPending := tree.walPending+1}

def maybeSyncWal : Act Unit := do
  let tree ← MonadState.get
  if tree.config.walSync = .everyAppend ∨ tree.config.walBatchSize ≤ tree.walPending then sync

def activePut (key value : Bytes) : Act Unit := do
  let tree ← MonadState.get
  let active ← attempt (tree.active.put key value)
  modify fun tree => {tree with active}

def activeDelete (key : Bytes) : Act Bool := do
  let tree ← MonadState.get
  let (active,removed) ← attempt (tree.active.delete key)
  modify fun tree => {tree with active}
  return removed

def manifestOf (tree : LsmTree) : ManifestSnapshot := ⟨tree.level0,tree.level1,tree.manifestSeq⟩

def flushedTree (tree : LsmTree) : LsmTree :=
  {tree with
    active := .new
    level0 := tree.level0 ++ [nextSstId tree.dir.level0Files]
    activeId := tree.activeId+1
    flushedWalSegment := tree.activeId+1
    walPending := 0
    manifestSeq := tree.manifestSeq+1 }

def flushedSegments (tree : LsmTree) : List Nat :=
  List.range' tree.flushedWalSegment (tree.activeId+1-tree.flushedWalSegment)

def flushSteps (tree : LsmTree) : List (Directory → Directory) :=
  (fun dir => dir.writeLevel0 (nextSstId tree.dir.level0Files) (.writeFromMemtable tree.active)) ::
  (fun dir => dir.rotate tree.activeId) ::
  (tree.flushedSegments.map fun id dir => dir.deleteSegment id) ++
  [fun dir => dir.commit tree.flushedTree.manifestOf]

def flushActive : Act Unit :=
  modify fun tree =>
    if tree.active.isEmpty then tree
    else {tree.flushedTree with dir := applyAll tree.dir tree.flushSteps}

def compactedTree (tree : LsmTree) : LsmTree :=
  {tree with
    level0 := []
    level1 := tree.level1 ++ [nextSstId tree.dir.level1Files]
    manifestSeq := tree.manifestSeq+1 }

def compactionSteps (tree : LsmTree) (merged : Sst) : List (Directory → Directory) :=
  (fun dir => dir.writeLevel1 (nextSstId tree.dir.level1Files) merged) ::
  (tree.level0.map fun id dir => dir.removeLevel0 id) ++
  [fun dir => dir.commit tree.compactedTree.manifestOf]

def runCompaction : Act Unit := do
  let tree ← MonadState.get
  let merged ← attempt (compactLevel0ToL1 tree.readers0)
  modify fun tree => {tree.compactedTree with dir := applyAll tree.dir (tree.compactionSteps merged)}

def maybeFlushAndCompact : Act Unit := do
  let tree ← MonadState.get
  if tree.active.bytes < tree.config.maxMemBytes then return
  flushActive
  let tree ← MonadState.get
  if tree.config.l0CompactionTrigger ≤ tree.level0.length then runCompaction

/- Each write is split where it calls `maybe_flush_and_compact`. -/
def putWrite (key value : Bytes) : Act Unit := do
  gateWrite
  walAppend (.put key value)
  countPending
  maybeSyncWal
  activePut key value

def put (key value : Bytes) : Act Unit := do
  putWrite key value
  maybeFlushAndCompact

def putAll : List Record → Act Unit
  | [] => pure ()
  | (key,value) :: rest => do
      walAppend (.put key value)
      activePut key value
      putAll rest

def syncWal : Act Unit := modify fun tree => {tree with dir := tree.dir.changeSegment tree.activeId Segment.sync}

def batchWrite (entries : List Record) : Act Unit := do
  gateWrite
  putAll entries
  syncWal

def putBatch (entries : List Record) : Act Unit := do
  batchWrite entries
  maybeFlushAndCompact

def versionWrite (userKey : Bytes) (version : Version) : Act Unit := do
  let val ← attempt (encodeVersion version)
  let ik := encodeInternalKey userKey version.commitTs
  walAppend (.put ik val)
  countPending
  maybeSyncWal
  activePut ik val

def putVersion (userKey : Bytes) (version : Version) : Act Unit := do
  versionWrite userKey version
  maybeFlushAndCompact

/- `saturating_add(1)`; 2 where no version is visible, above every raw value. -/
def nextTs : Option Version → CommitTs
  | none => 2
  | some v => if v.commitTs = 18446744073709551615 then v.commitTs else v.commitTs+1

def deleteWrite (key : Bytes) : Act (Option CommitTs × Bool) := do
  gateWrite
  walAppend (.delete key)
  countPending
  maybeSyncWal
  let removedActive ← activeDelete key
  let tree ← MonadState.get
  match ← attempt (tree.get key) with
  | some _ =>
      let found ← attempt (tree.findVisibleVersion key .latest)
      return (some (nextTs found),removedActive)
  | none => return (none,removedActive)

def delete (key : Bytes) : Act Bool := do
  match ← deleteWrite key with
  | (some ts,_) =>
      putVersion key (.tombstone ts)
      maybeFlushAndCompact
      return true
  | (none,removedActive) =>
      maybeFlushAndCompact
      return removedActive

def latestIn (records : List Record) (user : Bytes) : CommitTs :=
  records.foldl (fun latest r =>
    match decodeOrLegacy r.2 with
    | .ok v => if decodeUserKey r.1 = user ∧ latest < v.commitTs then v.commitTs else latest
    | .error _ => latest) 0

def Pruned (records : List Record) (minRetainTs : CommitTs) (r : Record) : Prop :=
  match decodeOrLegacy r.2 with
  | .ok v => 0 < v.commitTs ∧ v.commitTs < minRetainTs ∧ latestIn records (decodeUserKey r.1) ≠ v.commitTs
  | .error _ => False

instance (records minRetainTs r) : Decidable (Pruned records minRetainTs r) := by
  unfold Pruned
  split <;> infer_instance

def gcKeys (tree : LsmTree) (minRetainTs : CommitTs) : List Bytes :=
  (tree.active.iter.filter fun r => Pruned tree.active.iter minRetainTs r).map Prod.fst

def gcMvccActive (minRetainTs : CommitTs) : Act Nat := do
  let tree ← MonadState.get
  modify fun tree => {tree with active := (tree.gcKeys minRetainTs).foldl MemTable.remove tree.active}
  return (tree.gcKeys minRetainTs).length

end LsmTree
end NoeDB.Lsm
