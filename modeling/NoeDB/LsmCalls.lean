import NoeDB.Execution
import NoeDB.LsmLevels
import Mathlib.Logic.Relation

/-! The calls of the engine and the small steps they are made of: logged writes,
syncs, flushes, compactions and reopenings. -/
namespace NoeDB.LsmCalls
open ByteString OrderedTable StorageTypes StorageTables LsmDirectory Compaction Fallible Lsm LsmTree LsmLevels List

inductive Call where
  | put (key value : Bytes)
  | putBatch (entries : List Record)
  | delete (key : Bytes)
  | putVersion (userKey : Bytes) (version : Version)
  | sync
  | reopen
  deriving DecidableEq

def reopen : Act Unit := do
  let tree ← MonadState.get
  let next ← attempt (openTree tree.dir tree.config)
  modify fun _ => next

def perform : Call → Act Unit
  | .put key value => put key value
  | .putBatch entries => putBatch entries
  | .delete key => do
      let _ ← delete key
  | .putVersion userKey version => putVersion userKey version
  | .sync => sync
  | .reopen => reopen

def step (tree : LsmTree) (call : Call) : Option LsmTree :=
  match execute (perform call) tree with
  | (.ok _,next) => some next
  | (.error _,_) => none

theorem stepReturns {next} : step tree call = some next ↔ Returns (perform call) tree () next := by
  unfold step Returns
  obtain ⟨result,_⟩ := execute (perform call) tree
  cases result <;> simp

inductive Enters (tree : LsmTree) : Call → LsmTree → Prop where
  | put {key value next} (done : Returns (putWrite key value) tree () next) : Enters tree (.put key value) next
  | putBatch {entries next} (done : Returns (batchWrite entries) tree () next) : Enters tree (.putBatch entries) next
  | putVersion {userKey version next} (done : Returns (versionWrite userKey version) tree () next) :
      Enters tree (.putVersion userKey version) next
  | deleteOnly {key removed next} (done : Returns (deleteWrite key) tree (none,removed) next) :
      Enters tree (.delete key) next
  | deleteHidden {key ts removed mid next} (done : Returns (deleteWrite key) tree (some ts,removed) mid)
      (hidden : Returns (versionWrite key (.tombstone ts)) mid () next) : Enters tree (.delete key) next
  | deleteAfter {key ts removed mid next} (done : Returns (deleteWrite key) tree (some ts,removed) mid)
      (hidden : Returns (putVersion key (.tombstone ts)) mid () next) : Enters tree (.delete key) next

def Loggable : Call → Prop
  | .put key value => key.length+value.length+13 < 2^32
  | .putBatch entries => ∀ e ∈ entries, e.1.length+e.2.length+13 < 2^32
  | .delete key => key.length+39 < 2^32
  | .putVersion userKey version => userKey.length+version.value.length+39 < 2^32
  | .sync => True
  | .reopen => True

instance (call) : Decidable (Loggable call) := by cases call <;> unfold Loggable <;> infer_instance

/- Key and value have lengths that fit their fields in a table file; a tombstone is
eight bytes longer than its key. -/
def FileFits : Call → Prop
  | .put key value => key.length < 2^16 ∧ value.length+2^17 < 2^32
  | .putBatch entries => ∀ e ∈ entries, e.1.length < 2^16 ∧ e.2.length+2^17 < 2^32
  | .delete key => key.length+8 < 2^16
  | .putVersion userKey version => userKey.length+8 < 2^16 ∧ version.value.length+2^17 < 2^32
  | .sync => True
  | .reopen => True

instance (call) : Decidable (FileFits call) := by cases call <;> unfold FileFits <;> infer_instance

theorem fileFitsLoggable (fits : FileFits call) : Loggable call := by
  cases call with
  | put | putVersion =>
    obtain ⟨short,small⟩ := fits
    simp only [Loggable]
    omega
  | putBatch =>
    intro e mem
    obtain ⟨_,_⟩ := fits e mem
    omega
  | delete =>
    simp only [FileFits] at fits
    simp only [Loggable]
    omega
  | sync => trivial
  | reopen => trivial

structure Frame (tree next : LsmTree) : Prop where
  level0 : next.level0 = tree.level0
  level1 : next.level1 = tree.level1
  config : next.config = tree.config
  activeId : next.activeId = tree.activeId
  flushed : next.flushedWalSegment = tree.flushedWalSegment
  sequence : next.manifestSeq = tree.manifestSeq

theorem Frame.active {next} (frame : Frame tree next) (active) : Frame tree {next with active} :=
  ⟨frame.level0,frame.level1,frame.config,frame.activeId,frame.flushed,frame.sequence⟩

def Appends (mode : WalSyncMode) (entry : LogEntry) (change : Segment → Segment) : Prop :=
  ∀ seg, (change seg).content = seg.content ++ Wal.recordBytes entry ∧
    (mode = .everyAppend → (change seg).synced = (change seg).content.length)

structure Wrote (tree : LsmTree) (entry : LogEntry) (next : LsmTree) : Prop where
  checked : entry.encodeCheck = .ok ()
  applied : replayEntry tree.active entry = .ok next.active
  logged : ∃ change, Appends tree.config.walSync entry change ∧
    next.dir = tree.dir.changeSegment tree.activeId change
  frame : Frame tree next

structure Synced (tree next : LsmTree) : Prop where
  active : next.active = tree.active
  logged : next.dir = tree.dir.changeSegment tree.activeId Segment.sync
  frame : Frame tree next

inductive Micro (tree : LsmTree) : LsmTree → Prop where
  | wrote {entry next} (fits : Wal.Fits entry) (done : Wrote tree entry next) : Micro tree next
  | synced {next} (done : Synced tree next) : Micro tree next
  | flushed (filled : tree.active.isEmpty = false) : Micro tree (flushed tree)
  | compacted {merged} (done : compactLevel0ToL1 tree.readers0 = .ok merged) : Micro tree (compacted tree merged)
  | reopened {next} (done : openTree tree.dir tree.config = .ok next) : Micro tree next

abbrev Moves := Relation.ReflTransGen Micro

theorem changeSegmentTwice (dir : Directory) (id first second) :
    (dir.changeSegment id first).changeSegment id second = dir.changeSegment id fun seg => second (first seg) := by
  unfold Directory.changeSegment
  cases found : dir.segments.find id with
  | none => simp [found]
  | some => simp

theorem frameReaders {next} (frame : Frame tree next)
    (logged : next.dir = tree.dir.changeSegment tree.activeId change) :
    next.readers0 = tree.readers0 ∧ next.readers1 = tree.readers1 := by
  obtain ⟨files0,files1,-⟩ := changeSegmentParts tree.dir tree.activeId change
  simp [readers0,readers1,logged,frame.level0,frame.level1,and_self]

theorem gateWriteReturns {next} : Returns gateWrite tree u next ↔
      tree.level0.length < tree.config.writeStall.l0StopTrigger ∧ next = tree := by
  simp only [gateWrite,returnsBind,returnsGet]
  constructor
  · rintro ⟨_,_,⟨rfl,rfl⟩,rest⟩
    split at rest
    · simp at rest
    · rename_i room
      exact ⟨not_le.mp room,(returnsPure.mp rest).2⟩
  · rintro ⟨room,rfl⟩
    refine ⟨next,next,⟨rfl,rfl⟩,?_⟩
    rw [if_neg (not_le.mpr room)]
    exact returnsPure.mpr ⟨rfl,rfl⟩

theorem encodeReturns :
    Wal.encode entry = .ok bytes ↔ entry.encodeCheck = .ok () ∧ bytes = Wal.recordBytes entry := by
  unfold Wal.encode
  cases entry.encodeCheck with
  | error => simp
  | ok => simp [eq_comm]

theorem walAppendReturns {next} :
    Returns (walAppend entry) tree u next ↔ entry.encodeCheck = .ok () ∧ next = {tree with
      dir := tree.dir.changeSegment tree.activeId fun seg =>
        seg.append (Wal.recordBytes entry) (tree.config.walSync = .everyAppend) } := by
  simp only [walAppend,returnsBind,returnsAttempt,returnsModify,encodeReturns]
  constructor
  · rintro ⟨_,_,⟨⟨checked,rfl⟩,rfl⟩,rfl⟩
    exact ⟨checked,rfl⟩
  · rintro ⟨checked,rfl⟩
    exact ⟨_,tree,⟨⟨checked,rfl⟩,rfl⟩,rfl⟩

theorem appendAppends (mode entry) :
    Appends mode entry fun seg => seg.append (Wal.recordBytes entry) (mode = .everyAppend) := by
  intro _
  unfold Segment.append
  split
  · exact ⟨rfl,fun _ => rfl⟩
  · rename_i lazy
    exact ⟨rfl,fun every => absurd (decide_eq_true every) lazy⟩

theorem syncAppends (appends : Appends mode entry change) : Appends mode entry fun seg => (change seg).sync :=
  fun seg => ⟨(appends seg).1,fun _ => rfl⟩

theorem loggedReturns {α : Type} {tree next entry rest} {a : α}
    (done : Returns (do walAppend entry; countPending; maybeSyncWal; rest) tree a next) :
    ∃ mid change, entry.encodeCheck = .ok () ∧ Appends tree.config.walSync entry change ∧
      mid.dir = tree.dir.changeSegment tree.activeId change ∧ mid.active = tree.active ∧ Frame tree mid ∧
      Returns rest mid a next := by
  simp only [returnsBind] at done
  obtain ⟨_,_,appended,_,_,counted,_,_,maybe,last⟩ := done
  obtain ⟨checked,rfl⟩ := walAppendReturns.mp appended
  cases returnsModify.mp counted
  have appends := appendAppends tree.config.walSync entry
  simp only [maybeSyncWal,returnsBind,returnsGet] at maybe
  obtain ⟨_,_,⟨rfl,rfl⟩,choice⟩ := maybe
  split at choice
  · cases returnsModify.mp choice
    refine ⟨_,_,checked,syncAppends appends,?_,?_,?_,last⟩
    · exact changeSegmentTwice _ _ _ _
    · rfl
    · exact ⟨rfl,rfl,rfl,rfl,rfl,rfl⟩
  · obtain ⟨-,rfl⟩ := returnsPure.mp choice
    refine ⟨_,_,checked,appends,?_,?_,?_,last⟩
    · rfl
    · rfl
    · exact ⟨rfl,rfl,rfl,rfl,rfl,rfl⟩

theorem activePutReturns {next} : Returns (activePut key value) tree u next ↔
      ∃ active, tree.active.put key value = .ok active ∧ next = {tree with active} := by
  simp only [activePut,returnsBind,returnsGet,returnsAttempt,returnsModify]
  constructor
  · rintro ⟨_,_,⟨rfl,rfl⟩,active,_,⟨done,rfl⟩,rfl⟩
    exact ⟨active,done,rfl⟩
  · rintro ⟨active,done,rfl⟩
    exact ⟨tree,tree,⟨rfl,rfl⟩,active,tree,⟨done,rfl⟩,rfl⟩

theorem activeDeleteReturns {next} : Returns (activeDelete key) tree removed next ↔
      ∃ active, tree.active.delete key = .ok (active,removed) ∧ next = {tree with active} := by
  simp only [activeDelete,returnsBind,returnsGet,returnsAttempt,returnsModify,returnsPure]
  constructor
  · rintro ⟨_,_,⟨rfl,rfl⟩,⟨active,_⟩,_,⟨done,rfl⟩,_,_,rfl,rfl,rfl⟩
    exact ⟨active,done,rfl⟩
  · rintro ⟨active,done,rfl⟩
    exact ⟨tree,tree,⟨rfl,rfl⟩,(active,removed),tree,⟨done,rfl⟩,(),_,rfl,rfl,rfl⟩

theorem replayDelete {next} (done : table.delete key = .ok (next,removed)) :
    replayEntry table (.delete key) = .ok next ∧ removed = (table.map.find key).isSome := by
  have applied : replayEntry table (.delete key) = .ok next := by
    simp [replayEntry,LogEntry.delete,done]
  simp only [MemTable.delete] at done
  split at done
  · cases done
  · cases done
    exact ⟨applied,rfl⟩

theorem putWriteReturns {tree next key value u}
    (done : Returns (putWrite key value) tree u next) : Wrote tree (.put key value) next := by
  obtain ⟨_,_,gated,rest⟩ := returnsBind.mp done
  obtain ⟨-,rfl⟩ := gateWriteReturns.mp gated
  obtain ⟨_,change,checked,appends,dir,kept,frame,last⟩ := loggedReturns rest
  obtain ⟨_,applied,rfl⟩ := activePutReturns.mp last
  exact ⟨checked,kept ▸ applied,⟨change,appends,dir⟩,frame.active _⟩

theorem maybeSyncReturns (tree) : ∃ next, Returns maybeSyncWal tree () next := by
  unfold maybeSyncWal
  simp only [returnsGetBind]
  split
  · exact ⟨_,returnsModify.mpr rfl⟩
  · exact ⟨tree,returnsPure.mpr ⟨rfl,rfl⟩⟩

theorem loggedPutSucceeds (tree) (value) (named : key ≠ []) : ∃ u next,
    Returns (do walAppend (.put key value); countPending; maybeSyncWal; activePut key value) tree u next := by
  have checked : (LogEntry.put key value).encodeCheck = .ok () :=
    Wal.acceptedIff.mpr ⟨named,fun both => by cases both.1⟩
  refine returnsThen (a := ()) (walAppendReturns.mpr ⟨checked,rfl⟩) ?_
  refine returnsThen (a := ()) (returnsModify.mpr rfl) ?_
  obtain ⟨_,done⟩ := maybeSyncReturns _
  refine returnsThen done ?_
  exact ⟨(),_,activePutReturns.mpr ⟨_,dif_neg named,rfl⟩⟩

theorem putWriteSucceeds (value) (named : key ≠ [])
    (room : tree.level0.length < tree.config.writeStall.l0StopTrigger) :
    ∃ u next, Returns (putWrite key value) tree u next :=
  returnsThen (a := ()) (gateWriteReturns.mpr ⟨room,rfl⟩) (loggedPutSucceeds tree value named)

theorem versionWriteSucceeds (tree userKey) (committed : version.commitTs ≠ 0) :
    ∃ u next, Returns (versionWrite userKey version) tree u next := by
  have named : encodeInternalKey userKey version.commitTs ≠ [] := by
    intro none
    have length := internalKeyLength userKey version.commitTs
    simp [none] at length
  have encoded : encodeVersion version = .ok (versionBytes version) := if_neg committed
  exact returnsThen (returnsAttempt.mpr ⟨encoded,rfl⟩) (loggedPutSucceeds tree _ named)

theorem putAllReturns {next} (done : Returns (putAll ((key,value) :: rest)) tree u next) :
    ∃ mid, Wrote tree (.put key value) mid ∧ Returns (putAll rest) mid u next := by
  simp only [LsmTree.putAll,returnsBind] at done
  obtain ⟨_,_,appended,_,_,put,last⟩ := done
  obtain ⟨checked,rfl⟩ := walAppendReturns.mp appended
  obtain ⟨_,applied,rfl⟩ := activePutReturns.mp put
  refine ⟨_,?_,last⟩
  exact ⟨checked,applied,⟨_,appendAppends _ _,rfl⟩,⟨rfl,rfl,rfl,rfl,rfl,rfl⟩⟩

theorem batchWriteReturns {next} (done : Returns (batchWrite entries) tree u next) :
    ∃ mid, Returns (putAll entries) tree () mid ∧ Synced mid next := by
  simp only [batchWrite,returnsBind] at done
  obtain ⟨_,_,gated,_,mid,put,synced⟩ := done
  obtain ⟨-,rfl⟩ := gateWriteReturns.mp gated
  cases returnsModify.mp synced
  exact ⟨mid,put,⟨rfl,rfl,⟨rfl,rfl,rfl,rfl,rfl,rfl⟩⟩⟩

theorem versionWriteReturns {tree next userKey version} {u : Unit}
    (done : Returns (versionWrite userKey version) tree u next) : version.commitTs ≠ 0 ∧
      Wrote tree (.put (encodeInternalKey userKey version.commitTs) (versionBytes version)) next := by
  obtain ⟨_,_,encoded,rest⟩ := returnsBind.mp done
  obtain ⟨checked,rfl⟩ := returnsAttempt.mp encoded
  unfold encodeVersion at checked
  split at checked
  · cases checked
  rename_i committed
  cases checked
  obtain ⟨_,change,checked,appends,dir,kept,frame,last⟩ := loggedReturns rest
  obtain ⟨_,applied,rfl⟩ := activePutReturns.mp last
  exact ⟨committed,checked,kept ▸ applied,⟨change,appends,dir⟩,frame.active _⟩

def Found (tree : LsmTree) (key : Bytes) : Option CommitTs → Prop
  | none => tree.get key = .ok none
  | some ts => ∃ value found, tree.get key = .ok (some value) ∧
      tree.findVisibleVersion key .latest = .ok found ∧ ts = nextTs found

theorem deleteWriteReturns {start next key hide} {removed : Bool}
    (done : Returns (deleteWrite key) start (hide,removed) next) : Wrote start (.delete key) next ∧
      removed = (start.active.map.find key).isSome ∧ Found next key hide := by
  obtain ⟨_,_,gated,rest⟩ := returnsBind.mp done
  obtain ⟨-,same⟩ := gateWriteReturns.mp gated
  rw [same] at rest
  obtain ⟨mid,change,checked,appends,dir,kept,frame,last⟩ := loggedReturns rest
  simp only [returnsBind,returnsGet,returnsAttempt] at last
  obtain ⟨gone,_,deleted,_,_,⟨rfl,rfl⟩,read,_,⟨got,rfl⟩,outcome⟩ := last
  obtain ⟨active,applied,rfl⟩ := activeDeleteReturns.mp deleted
  have wrote : Wrote start (.delete key) {mid with active} :=
    ⟨checked,kept ▸ (replayDelete applied).1,⟨change,appends,dir⟩,frame.active _⟩
  have held : gone = (start.active.map.find key).isSome := kept ▸ (replayDelete applied).2
  cases read with
  | none =>
    obtain ⟨same,rfl⟩ := returnsPure.mp outcome
    cases same
    exact ⟨wrote,held,got⟩
  | some value =>
    simp only [returnsBind,returnsAttempt,returnsPure] at outcome
    obtain ⟨found,_,⟨searched,rfl⟩,same,rfl⟩ := outcome
    cases same
    exact ⟨wrote,held,value,found,got,searched,rfl⟩

def afterFlush (tree : LsmTree) : LsmTree := if tree.active.isEmpty then tree else flushed tree

inductive Settles (tree : LsmTree) : LsmTree → Prop where
  | room (small : tree.active.bytes < tree.config.maxMemBytes) : Settles tree tree
  | flushed (full : tree.config.maxMemBytes ≤ tree.active.bytes)
      (few : (afterFlush tree).level0.length < tree.config.l0CompactionTrigger) : Settles tree (afterFlush tree)
  | compacted {merged} (full : tree.config.maxMemBytes ≤ tree.active.bytes)
      (many : tree.config.l0CompactionTrigger ≤ (afterFlush tree).level0.length)
      (done : compactLevel0ToL1 (afterFlush tree).readers0 = .ok merged) :
      Settles tree (compacted (afterFlush tree) merged)

theorem afterFlushConfig (tree) : (afterFlush tree).config = tree.config := by
  unfold afterFlush
  split <;> rfl

theorem settleReturns {next} : Returns maybeFlushAndCompact tree u next ↔ Settles tree next := by
  unfold maybeFlushAndCompact
  rw [returnsGetBind]
  by_cases small : tree.active.bytes < tree.config.maxMemBytes
  · rw [if_pos small,returnsPure]
    constructor
    · rintro ⟨-,rfl⟩
      exact .room small
    · rintro (_ | ⟨full,-⟩ | ⟨full,-,-⟩)
      · exact ⟨rfl,rfl⟩
      all_goals exact absurd small (not_lt.mpr full)
  · have full := not_lt.mp small
    rw [if_neg small,returnsBind]
    constructor
    · rintro ⟨_,mid,flush,rest⟩
      have same : mid = afterFlush tree := flushActiveReturns.mp flush
      rw [returnsGetBind,same,afterFlushConfig] at rest
      split at rest
      · rename_i many
        obtain ⟨_,done,rfl⟩ := runCompactionReturns.mp rest
        exact .compacted full many done
      · rename_i few
        obtain ⟨-,rfl⟩ := returnsPure.mp rest
        exact .flushed full (not_le.mp few)
    · intro settles
      refine ⟨(),afterFlush tree,flushActiveReturns.mpr rfl,?_⟩
      rw [returnsGetBind,afterFlushConfig]
      cases settles with
      | room less => exact absurd less small
      | flushed _ few =>
        rw [if_neg (not_le.mpr few)]
        exact returnsPure.mpr ⟨rfl,rfl⟩
      | compacted _ many done =>
        rw [if_pos many]
        exact runCompactionReturns.mpr ⟨_,done,rfl⟩

theorem putActive {table next : MemTable} (done : table.put key value = .ok next) :
    next.isEmpty = false ∧ value.length ≤ next.bytes ∧ next.map = table.map.insert key value := by
  unfold MemTable.put at done
  split at done
  · cases done
  · cases done
    refine ⟨?_,?_,rfl⟩
    · have held : (table.map.insert key value).find key = some value := by simp
      have mem := Table.memIff.mpr held
      simp only [MemTable.isEmpty,MemTable.insert,isEmpty_eq_false_iff]
      exact ne_nil_of_mem mem
    · simp only [MemTable.insert,entryBytes]
      omega

theorem settlesExists (ready : tree.active.isEmpty = false ∨ 0 < tree.config.l0CompactionTrigger)
    (present : ∃ l0 l1, Levels tree l0 l1) : ∃ next, Settles tree next := by
  by_cases small : tree.active.bytes < tree.config.maxMemBytes
  · exact ⟨tree,.room small⟩
  by_cases few : (afterFlush tree).level0.length < tree.config.l0CompactionTrigger
  · exact ⟨_,.flushed (not_lt.mp small) few⟩
  obtain ⟨l0,_,levels⟩ := present
  obtain ⟨files,some',read⟩ : ∃ files, files ≠ [] ∧ readers0 (afterFlush tree) = files.map some := by
    cases filled : tree.active.isEmpty with
    | false =>
      have flush : afterFlush tree = flushed tree := by simp [afterFlush,filled]
      exact ⟨l0 ++ [Sst.writeFromMemtable tree.active],by simp,flush ▸ (flushedLevels levels).level0⟩
    | true =>
      have flush : afterFlush tree = tree := by simp [afterFlush,filled]
      rw [flush] at few ⊢
      refine ⟨l0,?_,levels.level0⟩
      rintro rfl
      have count := congrArg List.length levels.level0
      simp_all [readers0]
  obtain ⟨_,done,-⟩ := compactGreatest some'
  rw [← read] at done
  exact ⟨_,.compacted (not_lt.mp small) (not_lt.mp few) done⟩

theorem afterFlushMoves (tree) : Moves tree (afterFlush tree) := by
  unfold afterFlush
  split
  · exact .refl
  · rename_i filled
    exact .single (.flushed (by simpa using filled))

theorem settlesMoves {next} (settles : Settles tree next) : Moves tree next := by
  cases settles with
  | room => exact .refl
  | flushed => exact afterFlushMoves tree
  | compacted _ _ done => exact (afterFlushMoves tree).tail (.compacted done)

theorem wroteMoves {next} (wrote : Wrote tree entry next)
    (short : entry.key.length+entry.value.length+13 < 2^32) : Moves tree next := by
  refine .single (.wrote ⟨wrote.checked,?_⟩ wrote)
  rw [Wal.payloadLength]
  omega

theorem putAllMoves {next} (short : ∀ e ∈ entries, e.1.length+e.2.length+13 < 2^32)
    (done : Returns (putAll entries) tree u next) : Moves tree next := by
  induction entries generalizing tree with
  | nil =>
    obtain ⟨-,rfl⟩ := returnsPure.mp done
    exact .refl
  | cons entry _ ih =>
    obtain ⟨_,wrote,later⟩ := putAllReturns done
    exact (wroteMoves wrote (short entry mem_cons_self)).trans
      (ih (fun e mem => short e (mem_cons_of_mem _ mem)) later)

theorem versionLength (version) : (versionBytes version).length = version.value.length+18 := by
  simp [versionBytes,magic]
  omega

theorem versionMoves {next} (short : userKey.length+version.value.length+39 < 2^32)
    (done : Returns (versionWrite userKey version) tree u next) : Moves tree next := by
  refine wroteMoves (versionWriteReturns done).2 ?_
  simp only [LogEntry.put,internalKeyLength,versionLength]
  omega

theorem putVersionReturns {next} : Returns (putVersion userKey version) tree u next ↔
      ∃ mid, Returns (versionWrite userKey version) tree () mid ∧ Settles mid next := by
  simp only [putVersion,returnsBind,settleReturns]
  constructor
  · rintro ⟨_,mid,wrote,settles⟩
    exact ⟨mid,wrote,settles⟩
  · rintro ⟨mid,wrote,settles⟩
    exact ⟨(),mid,wrote,settles⟩

theorem deleteMoves {next}
    (short : key.length+39 < 2^32) (done : Returns (deleteWrite key) tree (hide,removed) next) : Moves tree next := by
  refine wroteMoves (deleteWriteReturns done).1 ?_
  simp only [LogEntry.delete,length_nil]
  omega

theorem tombstoneMoves {next}
    (short : key.length+39 < 2^32) (done : Returns (versionWrite key (.tombstone ts)) tree u next) : Moves tree next :=
  versionMoves (by simpa [Version.tombstone] using short) done

theorem entersMoves {next} (loggable : Loggable call) (enters : Enters tree call next) : Moves tree next := by
  cases enters with
  | put done => exact wroteMoves (putWriteReturns done) loggable
  | putBatch done =>
    obtain ⟨mid,put,synced⟩ := batchWriteReturns done
    exact (putAllMoves loggable put).tail (.synced synced)
  | putVersion done => exact versionMoves loggable done
  | deleteOnly done => exact deleteMoves loggable done
  | deleteHidden done hidden => exact (deleteMoves loggable done).trans (tombstoneMoves loggable hidden)
  | deleteAfter done hidden =>
    obtain ⟨_,wrote,settles⟩ := putVersionReturns.mp hidden
    exact ((deleteMoves loggable done).trans (tombstoneMoves loggable wrote)).trans (settlesMoves settles)

theorem stepEnters {next} (done : step tree call = some next) :
    (∃ mid, Enters tree call mid ∧ Settles mid next) ∨ (call = .sync ∧ Synced tree next) ∨
      (call = .reopen ∧ openTree tree.dir tree.config = .ok next) := by
  rw [stepReturns] at done
  cases call with
  | put =>
    obtain ⟨_,mid,wrote,settles⟩ := returnsBind.mp done
    exact .inl ⟨mid,.put wrote,settleReturns.mp settles⟩
  | putBatch =>
    obtain ⟨_,mid,wrote,settles⟩ := returnsBind.mp done
    exact .inl ⟨mid,.putBatch wrote,settleReturns.mp settles⟩
  | putVersion =>
    obtain ⟨mid,wrote,settles⟩ := putVersionReturns.mp done
    exact .inl ⟨mid,.putVersion wrote,settles⟩
  | delete =>
    simp only [perform,delete,returnsBind] at done
    obtain ⟨_,_,⟨⟨hide,_⟩,mid,wrote,rest⟩,last⟩ := done
    obtain ⟨-,rfl⟩ := returnsPure.mp last
    cases hide with
    | none =>
      simp only [returnsBind] at rest
      obtain ⟨_,after,settles,last⟩ := rest
      obtain ⟨-,rfl⟩ := returnsPure.mp last
      exact .inl ⟨mid,.deleteOnly wrote,settleReturns.mp settles⟩
    | some =>
      simp only [returnsBind] at rest
      obtain ⟨_,hidden,put,_,_,settles,last⟩ := rest
      obtain ⟨-,rfl⟩ := returnsPure.mp last
      exact .inl ⟨hidden,.deleteAfter wrote put,settleReturns.mp settles⟩
  | sync =>
    cases returnsModify.mp done
    exact .inr (.inl ⟨rfl,rfl,rfl,⟨rfl,rfl,rfl,rfl,rfl,rfl⟩⟩)
  | reopen =>
    simp only [perform,reopen,returnsBind,returnsGet,returnsAttempt,returnsModify] at done
    obtain ⟨_,_,⟨rfl,rfl⟩,_,_,⟨ok,rfl⟩,rfl⟩ := done
    exact .inr (.inr ⟨rfl,ok⟩)

theorem stepMoves {next} (loggable : Loggable call) (done : step tree call = some next) : Moves tree next := by
  rcases stepEnters done with ⟨_,enters,settles⟩ | ⟨-,synced⟩ | ⟨-,opened⟩
  · exact (entersMoves loggable enters).trans (settlesMoves settles)
  · exact .single (.synced synced)
  · exact .single (.reopened opened)

theorem runMoves {next} (loggable : ∀ call ∈ calls, Loggable call)
    (done : Execution.run step tree calls = some next) : Moves tree next := by
  induction calls generalizing tree with
  | nil =>
    cases Option.some.inj done
    exact .refl
  | cons call _ ih =>
    obtain ⟨_,first,later⟩ := Execution.runCons done
    exact (stepMoves (loggable call mem_cons_self) first).trans
      (ih (fun c mem => loggable c (mem_cons_of_mem _ mem)) later)

end NoeDB.LsmCalls
