import NoeDB.TableRegion

/-! The rows across pruning and reopening. Pruning takes old versions from the active table
but not from the log, so that they come back when the directory is opened again; newer
versions of the same keys come back with them. -/
namespace NoeDB.RowRecovery
open ByteString OrderedTable StorageTypes StorageTables LsmDirectory Compaction Fallible LatestItem List
open Lsm LsmTree LsmLevels LsmReads LsmCalls LsmRecords LsmVersions LsmGc LsmRecovery Transactions
open TableRegion Wal

def withActive (tree : LsmTree) (kept : MemTable) : LsmTree := {tree with active := kept}

structure Backing (tree : LsmTree) (kept : MemTable) (seg : Segment) (records : List LogEntry) : Prop where
  journal : Journal tree seg records
  replays : replay .new records = .ok kept
  subset : ∀ r ∈ tree.active.iter, r ∈ kept.iter
  region : Region (withActive tree kept)
  covered : ∀ key v, TableKey key → Held (withActive tree kept) key v → ∃ w, Held tree key w ∧ v.commitTs ≤ w.commitTs

def Recoverable (tree : LsmTree) : Prop := ∃ kept seg records, Backing tree kept seg records

section
variable {tree next : LsmTree} {kept : MemTable} {seg : Segment} {records : List LogEntry} {rows : Table Bytes Bytes}

theorem backedMem (backing : Backing tree kept seg records) (mem : r ∈ scanned tree) :
    r ∈ scanned (withActive tree kept) := by
  rcases mem_append.mp mem with file | own
  · exact mem_append_left _ file
  · exact mem_append_right _ (backing.subset r own)

theorem backedRegion (backing : Backing tree kept seg records) : Region tree where
  levels := backing.journal.levels
  shape r mem := backing.region.shape r (backedMem backing mem)
  single key v w own left right := backing.region.single key v w own (backedMem backing left) (backedMem backing right)

theorem Recoverable.region (recoverable : Recoverable tree) : Region tree := by
  obtain ⟨_,_,_,backing⟩ := recoverable
  exact backedRegion backing

theorem backedShows (backing : Backing tree kept seg records) (shows' : Shows tree rows) :
    Shows (withActive tree kept) rows where
  keys := shows'.keys
  reads key own := by
    obtain ⟨found,latest,value⟩ := shows'.reads key own
    refine ⟨found,?_,value⟩
    cases found with
    | none =>
      intro v held
      obtain ⟨w,stored,-⟩ := backing.covered key v own held
      exact latest w stored
    | some =>
      refine ⟨backedMem backing latest.1,fun v held => ?_⟩
      obtain ⟨w,stored,below⟩ := backing.covered key v own held
      exact le_trans below (latest.2 w stored)

theorem storedRecoverable (stored : Stored tree seg records) (region : Region tree) : Recoverable tree :=
  ⟨tree.active,seg,records,stored.toJournal,stored.replays,fun _ mem => mem,region,fun _ v _ held => ⟨v,held,le_refl _⟩⟩

theorem recoverableFresh (config : LsmConfig) : Recoverable (fresh config) := by
  have none : ∀ r, r ∉ scanned (fresh config) := fun r mem => by cases mem
  refine storedRecoverable (storedFresh config) ⟨(storedFresh config).levels,?_,?_⟩
  · exact fun r mem => absurd mem (none r)
  · exact fun _ _ _ _ held => absurd held (none _)

theorem wroteBoth (wrote : Wrote tree entry next) (kept) :
    ∃ more, replayEntry kept entry = .ok more ∧ Wrote (withActive tree kept) entry (withActive next more) := by
  have named : entry.key ≠ [] := (acceptedIff.mp wrote.checked).1
  have applies : ∃ more, replayEntry kept entry = .ok more := by
    unfold replayEntry
    cases entry.op with
    | put => exact ⟨_,dif_neg named⟩
    | delete =>
      simp [MemTable.delete,MemTable.validateKey,named]
  obtain ⟨more,applied⟩ := applies
  exact ⟨more,applied,wrote.checked,applied,wrote.logged,⟨wrote.frame.level0,wrote.frame.level1,wrote.frame.config,
    wrote.frame.activeId,wrote.frame.flushed,wrote.frame.sequence⟩⟩

theorem wroteSubset (subset : ∀ r ∈ tree.active.iter, r ∈ kept.iter)
    (shape : entry = .put entry.key entry.value ∨ entry = .delete entry.key) (wrote : Wrote tree entry next)
    (both : Wrote (withActive tree kept) entry (withActive next more)) : ∀ r ∈ next.active.iter, r ∈ more.iter := by
  intro r mem
  rcases shape with put | delete
  · rw [put] at wrote both
    rcases ((wrotePut wrote).2 r).mp mem with new | ⟨old,other⟩
    · exact ((wrotePut both).2 r).mpr (.inl new)
    · exact ((wrotePut both).2 r).mpr (.inr ⟨subset r old,other⟩)
  · rw [delete] at wrote both
    obtain ⟨old,other⟩ := ((wroteDelete wrote).2 r).mp mem
    exact ((wroteDelete both).2 r).mpr ⟨subset r old,other⟩

theorem backedSame (backing : Backing tree kept seg records) (fits : Fits entry)
    (shape : entry = .put entry.key entry.value ∨ entry = .delete entry.key)
    (same : ∀ {a b}, Region a → Wrote a entry b → SameRows a b) (wrote : Wrote tree entry next) : Recoverable next := by
  obtain ⟨more,applied,both⟩ := wroteBoth wrote kept
  obtain ⟨change,-,journal⟩ := journalWrote backing.journal fits wrote
  have here := same (backedRegion backing) wrote
  have there := same backing.region both
  refine ⟨more,change seg,_,journal,?_,wroteSubset backing.subset shape wrote both,sameRegion backing.region there,?_⟩
  · simp [replayAppend,backing.replays,replay,applied]
  · intro key v own held
    obtain ⟨w,stored,below⟩ := backing.covered key v own ((there.held own).mp held)
    exact ⟨w,(here.held own).mpr stored,below⟩

theorem deleteSame (own : TableKey key) (region : Region tree) (wrote : Wrote tree (.delete key) next) :
    SameRows tree next := by
  refine ⟨wroteLevelsKept region.levels wrote,fun r outer => ?_⟩
  rw [memDelete wrote,scanned,mem_append]
  exact or_congr_right ⟨And.left,fun old => ⟨old,regionFree region own (mem_append_right _ old)⟩⟩

theorem backedAbove (backing : Backing tree kept seg records) (own : TableKey key)
    (above : Above tree key ts) : Above (withActive tree kept) key ts := by
  intro v held
  obtain ⟨w,stored,below⟩ := backing.covered key v own held
  exact lt_of_le_of_lt below (above w stored)

theorem backedVersion (backing : Backing tree kept seg records)
    (fits : Fits (.put (recordOf key version).1 (recordOf key version).2)) (own : TableKey key)
    (committed : version.commitTs ≠ 0) (early : Early version.commitTs) (short : version.value.length < 2^32)
    (above : Above tree key version.commitTs)
    (wrote : Wrote tree (.put (recordOf key version).1 (recordOf key version).2) next) : Recoverable next := by
  obtain ⟨more,applied,both⟩ := wroteBoth wrote kept
  obtain ⟨change,-,journal⟩ := journalWrote backing.journal fits wrote
  obtain ⟨-,here⟩ := wroteVersionShows (backedRegion backing) own committed early short above wrote
  obtain ⟨region,there⟩ := wroteVersionShows backing.region own committed early short (backedAbove backing own above) both
  refine ⟨more,change seg,_,journal,?_,wroteSubset backing.subset (.inl rfl) wrote both,region,?_⟩
  · simp [replayAppend,backing.replays,replay,applied]
  · intro k v keyed held
    have outer : ∀ u, ¬Reserved (recordOf k u).1 := fun u => (recordReserved keyed.named).not.mpr keyed.outer
    rcases (there _ (outer v)).mp held with new | old
    · exact ⟨v,(here _ (outer v)).mpr (.inl new),le_refl _⟩
    · obtain ⟨w,stored,below⟩ := backing.covered k v keyed old
      exact ⟨w,(here _ (outer w)).mpr (.inr stored),below⟩

theorem journalActive (journal : Journal tree seg records) (table) : Journal (withActive tree table) seg records := by
  obtain ⟨l0,l1,levels⟩ := journal.levels
  exact {journal with levels := ⟨l0,l1,levels.level0,levels.level1⟩}

theorem backedCompacted (backing : Backing tree kept seg records)
    (done : compactLevel0ToL1 tree.readers0 = .ok merged) : Recoverable (compacted tree merged) := by
  have region := backedRegion backing
  have here : SameRows tree (compacted tree merged) := by
    have keeps := compactedKeeps region.levels (regionAgrees region) done
    exact ⟨keeps.levels,keeps.records⟩
  have there : SameRows (withActive tree kept) (withActive (compacted tree merged) kept) := by
    have keeps := @compactedKeeps (withActive tree kept) _ backing.region.levels (regionAgrees backing.region) merged done
    exact ⟨keeps.levels,keeps.records⟩
  refine ⟨kept,seg,records,journalCompacted backing.journal,backing.replays,backing.subset,
    sameRegion backing.region there,fun key v own held => ?_⟩
  obtain ⟨w,stored,below⟩ := backing.covered key v own ((there.held own).mp held)
  exact ⟨w,(here.held own).mpr stored,below⟩

theorem recoverableFlush (recoverable : Recoverable tree) : Recoverable (afterFlush tree) := by
  unfold afterFlush
  split
  · exact recoverable
  · obtain ⟨_,_,records,backing⟩ := recoverable
    have region := backedRegion backing
    have keeps := @flushedKeeps tree (fun key => ¬Reserved key) region.levels
    exact storedRecoverable (storedFlushed backing.journal) (sameRegion region ⟨keeps.levels,keeps.records⟩)

theorem recoverableSettles (recoverable : Recoverable tree) (settles : Settles tree next) : Recoverable next := by
  cases settles with
  | room => exact recoverable
  | flushed => exact recoverableFlush recoverable
  | compacted _ _ done =>
    obtain ⟨_,_,_,backing⟩ := recoverableFlush recoverable
    exact backedCompacted backing done

theorem regionPruned (region : Region tree) (own : TableKey key)
    (mem : recordOf key version ∈ tree.active.iter) (pruned : Pruned tree.active.iter m (recordOf key version)) :
    ∃ w, recordOf key w ∈ tree.active.iter ∧ version.commitTs < w.commitTs := by
  have own' := regionOwn region own
  exact (prunedNewer (fun r stored of => own'.shape r stored (.inl of)) (fun v held => (own'.committed v held).2)
    mem pruned).2

theorem newestHeld (region : Region tree) (own : TableKey key) (held : Held tree key v) :
    ∃ w, Held tree key w ∧ v.commitTs ≤ w.commitTs ∧ ∀ u, Held tree key u → u.commitTs ≤ w.commitTs := by
  obtain ⟨_,-,found,latest,-⟩ := regionReads region own
  cases found with
  | none => exact absurd held (latest v)
  | some top => exact ⟨top,latest.1,latest.2 v held,latest.2⟩

theorem newestStays (region : Region tree) (own : TableKey key)
    (held : Held tree key w) (top : ∀ u, Held tree key u → u.commitTs ≤ w.commitTs) : Held (collected tree m) key w := by
  refine memCollected.mpr ?_
  rcases mem_append.mp held with file | mine
  · exact .inl file
  · refine .inr ⟨mine,fun pruned => ?_⟩
    obtain ⟨u,beside,newer⟩ := regionPruned region own mine pruned
    exact absurd newer (not_lt.mpr (top u (mem_append_right _ beside)))

theorem recoverableCollected (recoverable : Recoverable tree) (m) : Recoverable (collected tree m) := by
  obtain ⟨kept,seg,records,backing⟩ := recoverable
  have region := backedRegion backing
  refine ⟨kept,seg,records,journalActive backing.journal _,backing.replays,fun r mem => ?_,backing.region,?_⟩
  · have entries : r ∈ tree.active.map.entries.filter (stays tree m) := collectedEntries ▸ mem
    exact backing.subset r (mem_of_mem_filter entries)
  · intro key v own held
    obtain ⟨w,stored,below⟩ := backing.covered key v own held
    obtain ⟨top,inside,above,all⟩ := newestHeld region own stored
    exact ⟨top,newestStays region own inside all,le_trans below above⟩

theorem showsCollected (region : Region tree) (shows' : Shows tree rows) (m : CommitTs) :
    Shows (collected tree m) rows where
  keys := shows'.keys
  reads key own := by
    obtain ⟨found,latest,value⟩ := shows'.reads key own
    refine ⟨found,latestPart (fun v held => collectedSubset held) (fun v held top => ?_) latest,value⟩
    exact newestStays region own held top

theorem reopened (recoverable : Recoverable tree) (config : LsmConfig) : ∃ next, openTree tree.dir config = .ok next ∧
    Recoverable next ∧ ∀ rows, Shows tree rows → Shows next rows := by
  obtain ⟨kept,seg,records,backing⟩ := recoverable
  refine ⟨_,openJournal backing.journal backing.replays config,?_,fun rows shows' => ?_⟩
  · obtain ⟨l0,l1,levels⟩ := backing.journal.levels
    have same : SameRows (withActive tree kept)
        {tree with active := kept, config, flushedWalSegment := 0, walPending := 0} :=
      ⟨⟨l0,l1,levels.level0,levels.level1⟩,fun _ _ => Iff.rfl⟩
    refine ⟨kept,seg,records,?_,backing.replays,fun _ mem => mem,sameRegion backing.region same,
      fun _ v _ held => ⟨v,held,le_refl _⟩⟩
    exact {backing.journal with
      flushed := Nat.zero_le _
      levels := ⟨l0,l1,levels.level0,levels.level1⟩ }
  · exact ⟨shows'.keys,(backedShows backing shows').reads⟩

end

section
variable {tree next : LsmTree} {key value : Bytes}

theorem gateLeaves (tree) : Leaves gateWrite tree (fun _ mid => mid = tree) fun mid => mid = tree := by
  by_cases room : tree.level0.length < tree.config.writeStall.l0StopTrigger
  · exact .inl ⟨(),tree,gateWriteReturns.mpr ⟨room,rfl⟩,rfl⟩
  · refine .inr ⟨.error (.resourceExhausted "L0 SST backlog at stop threshold — compaction required"),tree,?_,rfl⟩
    simp only [gateWrite,executeBind]
    rw [show execute (MonadState.get : Act LsmTree) tree = (.ok tree,tree) from rfl]
    simp only [if_pos (not_lt.mp room)]
    rfl

theorem putWriteLeaves (named : key ≠ []) (value tree) :
    Leaves (putWrite key value) tree (fun _ mid => Wrote tree (.put key value) mid) fun mid => mid = tree := by
  rcases gateLeaves tree with ⟨_,_,gated,rfl⟩ | ⟨e,mid,failed,rfl⟩
  · obtain ⟨u,next,done⟩ := putWriteSucceeds value named (gateWriteReturns.mp gated).1
    exact .inl ⟨u,next,done,putWriteReturns done⟩
  · refine .inr ⟨e,mid,?_,rfl⟩
    unfold putWrite
    rw [executeBind,failed]

theorem settleSucceeds (present : ∃ l0 l1, Levels tree l0 l1) (trigger : 0 < tree.config.l0CompactionTrigger) :
    ∃ next, Returns maybeFlushAndCompact tree () next ∧ Settles tree next := by
  obtain ⟨next,settles⟩ := settlesExists (.inr trigger) present
  exact ⟨next,settleReturns.mpr settles,settles⟩

theorem settlesConfig (settles : Settles tree next) : next.config = tree.config := by
  cases settles with
  | room => rfl
  | flushed | compacted => exact afterFlushConfig tree

theorem loggedDelete (named : key ≠ []) (tree) : ∃ appended counted synced removed mid,
    Returns (walAppend (.delete key)) tree () appended ∧ Returns countPending appended () counted ∧
      Returns maybeSyncWal counted () synced ∧ Returns (activeDelete key) synced removed mid ∧
      Wrote tree (.delete key) mid := by
  have checked : (LogEntry.delete key).encodeCheck = .ok () := acceptedIff.mpr ⟨named,fun both => both.2 rfl⟩
  have appends : ∃ appended, Returns (walAppend (.delete key)) tree () appended :=
    ⟨_,walAppendReturns.mpr ⟨checked,rfl⟩⟩
  obtain ⟨appended,append⟩ := appends
  have counts : ∃ counted, Returns countPending appended () counted := ⟨_,returnsModify.mpr rfl⟩
  obtain ⟨counted,count⟩ := counts
  obtain ⟨synced,sync⟩ := maybeSyncReturns counted
  have removes : synced.active.delete key = .ok (synced.active.remove key,(synced.active.map.find key).isSome) := by
    simp [MemTable.delete,MemTable.validateKey,named]
  have delete : Returns (activeDelete key) synced _ {synced with active := synced.active.remove key} :=
    activeDeleteReturns.mpr ⟨_,removes,rfl⟩
  refine ⟨appended,counted,synced,_,_,append,count,sync,delete,?_⟩
  obtain ⟨_,change,-,appends,dir,kept,frame,last⟩ := loggedReturns
    (returnsBind.mpr ⟨(),_,append,returnsBind.mpr ⟨(),_,count,returnsBind.mpr ⟨(),_,sync,delete⟩⟩⟩)
  obtain ⟨_,applied,same⟩ := activeDeleteReturns.mp last
  rw [same]
  exact ⟨checked,kept ▸ (replayDelete applied).1,⟨change,appends,dir⟩,frame.active _⟩

theorem deleteWriteLeaves (named : key ≠ []) (tree) : Leaves (deleteWrite key) tree
    (fun hidden mid => Wrote tree (.delete key) mid ∧ Found mid key hidden.1)
    fun mid => mid = tree ∨ Wrote tree (.delete key) mid := by
  rcases gateLeaves tree with ⟨_,_,gated,rfl⟩ | ⟨e,mid,failed,rfl⟩
  · rename_i tree
    obtain ⟨_,_,_,removed,mid,append,count,sync,delete,wrote⟩ := loggedDelete named tree
    refine leavesReturns gated (leavesReturns append (leavesReturns count (leavesReturns sync (leavesReturns delete ?_))))
    refine leavesReturns (returnsGet.mpr ⟨rfl,rfl⟩) ?_
    cases read : mid.get key with
    | error e =>
      exact .inr ⟨e,mid,rfl,.inr wrote⟩
    | ok found =>
      cases found with
      | none => exact .inl ⟨_,mid,rfl,wrote,read⟩
      | some value =>
        cases search : mid.findVisibleVersion key .latest with
        | error e => exact .inr ⟨e,mid,rfl,.inr wrote⟩
        | ok version => exact .inl ⟨(some (nextTs version),removed),mid,rfl,wrote,value,version,read,search,rfl⟩
  · refine .inr ⟨e,mid,?_,.inl rfl⟩
    unfold deleteWrite
    rw [executeBind,failed]

end

structure Holds (rows : Table Bytes Bytes) (tree : LsmTree) : Prop where
  recoverable : Recoverable tree
  shows' : Shows tree rows
  trigger : 0 < tree.config.l0CompactionTrigger

section
variable {tree next : LsmTree} {rows : Table Bytes Bytes} {key : Bytes}

theorem holdsFresh {config} (trigger : 0 < config.l0CompactionTrigger) : Holds .empty (fresh config) where
  recoverable := recoverableFresh config
  shows' := by
    refine ⟨fun e mem => absurd mem not_mem_nil,fun key own => ⟨none,?_,rfl⟩⟩
    intro v held
    cases held
  trigger := trigger

theorem settleHolds (holds : Holds rows tree) : ∃ next, Returns maybeFlushAndCompact tree () next ∧ Holds rows next := by
  have region := holds.recoverable.region
  obtain ⟨next,done,settles⟩ := settleSucceeds region.levels holds.trigger
  refine ⟨next,done,recoverableSettles holds.recoverable settles,sameShows holds.shows' (settlesSame region settles),?_⟩
  rw [settlesConfig settles]
  exact holds.trigger

theorem wroteFits (short : entry.key.length+entry.value.length+13 < 2^32) (wrote : Wrote tree entry next) :
    Fits entry := by
  refine ⟨wrote.checked,?_⟩
  rw [payloadLength]
  omega

theorem holdsReserved (holds : Holds rows tree)
    (short : entry.key.length+entry.value.length+13 < 2^32) (reserved : Reserved entry.key)
    (shape : entry = .put entry.key entry.value ∨ entry = .delete entry.key) (wrote : Wrote tree entry next) :
    Holds rows next := by
  have region := holds.recoverable.region
  obtain ⟨_,_,_,backing⟩ := holds.recoverable
  refine ⟨backedSame backing (wroteFits short wrote) shape
    (fun region wrote => wroteReserved region.levels reserved shape wrote) wrote,?_,?_⟩
  · exact sameShows holds.shows' (wroteReserved region.levels reserved shape wrote)
  · rw [wrote.frame.config]
    exact holds.trigger

theorem putHolds (holds : Holds rows tree) (named : key ≠ []) (reserved : Reserved key)
    (short : key.length+value.length+13 < 2^32) : Leaves (put key value) tree (fun _ => Holds rows) (Holds rows) := by
  have write : Leaves (putWrite key value) tree (fun _ => Holds rows) (Holds rows) := by
    refine leavesMono (putWriteLeaves named value tree) (fun _ mid wrote => ?_) fun mid same => ?_
    · exact holdsReserved holds short reserved (.inl rfl) wrote
    · exact same ▸ holds
  refine leavesBind write fun _ mid middle => ?_
  obtain ⟨next,done,after⟩ := settleHolds middle
  exact .inl ⟨(),next,done,after⟩

theorem putVersionHolds {version} (holds : Holds rows tree) (named : key ≠ []) (reserved : Reserved key)
    (committed : version.commitTs ≠ 0) (short : key.length+version.value.length+39 < 2^32) :
    ∃ next, Returns (putVersion key version) tree () next ∧ Holds rows next ∧ SameRows tree next := by
  obtain ⟨u,mid,written⟩ := versionWriteSucceeds tree key committed
  have wrote := (versionWriteReturns written).2
  have region := holds.recoverable.region
  have reserved' : Reserved (recordOf key version).1 := (recordReserved named).mpr reserved
  have middle : Holds rows mid := by
    refine holdsReserved holds ?_ reserved' (.inl rfl) wrote
    simp only [LogEntry.put,internalKeyLength,versionLength]
    omega
  have same := wroteReserved region.levels reserved' (.inl rfl) wrote
  obtain ⟨next,done,settles⟩ := settleSucceeds same.levels middle.trigger
  have same' := settlesSame middle.recoverable.region settles
  refine ⟨next,returnsBind.mpr ⟨u,mid,written,done⟩,⟨?_,?_,?_⟩,same.trans same'⟩
  · exact recoverableSettles middle.recoverable settles
  · exact sameShows middle.shows' same'
  · rw [settlesConfig settles]
    exact middle.trigger

theorem putVersionRows {op ts} (holds : Holds rows tree) (own : TableKey key) (committed : ts ≠ 0)
    (early : Early ts) (short : key.length+(op.version ts).value.length+39 < 2^32) (above : Above tree key ts) :
    ∃ next, Returns (putVersion key (op.version ts)) tree () next ∧ Holds (written rows key op) next ∧
      ∀ r : Record, ¬Reserved r.1 → (r ∈ scanned next ↔ r = recordOf key (op.version ts) ∨ r ∈ scanned tree) := by
  have stamp : (op.version ts).commitTs = ts := by simp
  have committed' : (op.version ts).commitTs ≠ 0 := by
    rw [stamp]
    exact committed
  have region := holds.recoverable.region
  obtain ⟨u,mid,ran⟩ := versionWriteSucceeds tree key committed'
  obtain ⟨-,wrote⟩ := versionWriteReturns ran
  have fits : Fits (.put (recordOf key (op.version ts)).1 (recordOf key (op.version ts)).2) := by
    refine wroteFits ?_ wrote
    simp only [LogEntry.put,recordOf,internalKeyLength,versionLength]
    omega
  have small : (op.version ts).value.length < 2^32 := by omega
  obtain ⟨region',records⟩ := wroteVersionShows region own committed' (stamp.symm ▸ early) small (stamp.symm ▸ above) wrote
  have middle : Holds (written rows key op) mid := by
    obtain ⟨_,_,_,backing⟩ := holds.recoverable
    refine ⟨backedVersion backing fits own committed' (stamp.symm ▸ early) small (stamp.symm ▸ above) wrote,?_,?_⟩
    · exact addedShows holds.shows' own above records
    · rw [wrote.frame.config]
      exact holds.trigger
  obtain ⟨next,done,settles⟩ := settleSucceeds region'.levels middle.trigger
  have same := settlesSame region' settles
  refine ⟨next,returnsBind.mpr ⟨u,mid,ran,done⟩,?_,fun r outer => (same.records r outer).trans (records r outer)⟩
  refine ⟨recoverableSettles middle.recoverable settles,sameShows middle.shows' same,?_⟩
  rw [settlesConfig settles]
  exact middle.trigger

theorem hidingStamp (found) : nextTs found ≠ 0 := by
  cases found with
  | none => exact by decide
  | some v =>
    show (if v.commitTs = 18446744073709551615 then v.commitTs else v.commitTs+1) ≠ 0
    split
    · rename_i most
      rw [most]
      decide
    · rename_i less
      intro zero
      apply less
      have sum := congrArg UInt64.toNat zero
      have bound := v.commitTs.toNat_lt
      rw [UInt64.toNat_add] at sum
      simp only [UInt64.reduceToNat] at sum
      exact UInt64.toNat_inj.mp (by simp only [UInt64.reduceToNat]; omega)

theorem deleteLeaves {after} (holds : Holds rows tree) (named : key ≠ [])
    (written : ∀ mid, Wrote tree (.delete key) mid → Holds rows mid)
    (absent : ∀ mid, Wrote tree (.delete key) mid → Found mid key none → Holds after mid)
    (hides : ∀ mid ts, Wrote tree (.delete key) mid → Found mid key (some ts) →
      ∃ last, Returns (putVersion key (.tombstone ts)) mid () last ∧ Holds after last) :
    Leaves (delete key) tree (fun _ => Holds after) (Holds rows) := by
  refine leavesBind (leavesMono (deleteWriteLeaves named tree) (fun _ _ both => both) fun mid failed => ?_)
    fun hidden mid both => ?_
  · rcases failed with rfl | wrote
    · exact holds
    · exact written mid wrote
  · obtain ⟨hide,removed⟩ := hidden
    cases hide with
    | none =>
      obtain ⟨next,done,settled⟩ := settleHolds (absent mid both.1 both.2)
      exact .inl ⟨removed,next,returnsBind.mpr ⟨(),next,done,rfl⟩,settled⟩
    | some ts =>
      obtain ⟨last,put,hidden⟩ := hides mid ts both.1 both.2
      obtain ⟨next,done,settled⟩ := settleHolds hidden
      exact .inl ⟨true,next,returnsBind.mpr ⟨(),last,put,returnsBind.mpr ⟨(),next,done,rfl⟩⟩,settled⟩

theorem deleteHolds (holds : Holds rows tree) (named : key ≠ []) (reserved : Reserved key)
    (short : key.length+39 < 2^32) : Leaves (delete key) tree (fun _ => Holds rows) (Holds rows) := by
  have written : ∀ mid, Wrote tree (.delete key) mid → Holds rows mid := by
    intro mid wrote
    refine holdsReserved holds ?_ reserved (.inr rfl) wrote
    simp only [LogEntry.delete,length_nil]
    omega
  refine deleteLeaves holds named written (fun mid wrote _ => written mid wrote) fun mid ts wrote found => ?_
  obtain ⟨_,found,-,-,stamp⟩ := found
  obtain ⟨last,put,hidden,-⟩ := @putVersionHolds mid rows key (.tombstone ts) (written mid wrote) named reserved
    (by rw [stamp]; exact hidingStamp found) (by simpa [Version.tombstone] using short)
  exact ⟨last,put,hidden⟩

theorem regionLatest (region : Region tree) (own : TableKey key) :
    ∃ found, tree.findVisibleVersion key .latest = .ok found ∧ Latest Version.commitTs (Held tree key) found := by
  obtain ⟨found,search,latest⟩ := @ownLatest _ _ .latest (regionOwn region own)
  exact ⟨found,search,(latestCongr fun v => and_iff_left (latestStamp v)).mp latest⟩

theorem hidingAbove (region : Region tree) (own : TableKey key) (room : ∀ v, Held tree key v → v.commitTs.toNat+1 < 2^56) (hidden : Found tree key (some ts)) : Early ts ∧ Above tree key ts := by
  obtain ⟨_,found,read,search,rfl⟩ := hidden
  obtain ⟨_,search',latest⟩ := regionLatest region own
  rw [search] at search'
  cases search'
  cases found with
  | none =>
    rw [regionGet region own] at read
    simp [getVisible,search] at read
  | some v =>
    have small := room v latest.1
    have stamp : (nextTs (some v)).toNat = v.commitTs.toNat+1 := by
      have less : v.commitTs ≠ 18446744073709551615 := by
        intro most
        rw [most] at small
        exact absurd small (by decide)
      show (if v.commitTs = 18446744073709551615 then v.commitTs else v.commitTs+1).toNat = _
      rw [if_neg less,UInt64.toNat_add]
      simp only [UInt64.reduceToNat]
      omega
    refine ⟨by unfold Early; omega,fun w held => ?_⟩
    have below := UInt64.le_iff_toNat_le.mp (latest.2 w held)
    rw [UInt64.lt_iff_toNat_lt]
    omega

theorem deleteRows (holds : Holds rows tree) (own : TableKey key) (short : key.length+39 < 2^32)
    (room : ∀ v, Held tree key v → v.commitTs.toNat+1 < 2^56) :
    Leaves (delete key) tree (fun _ => Holds (rows.erase key)) (Holds rows) := by
  have region := holds.recoverable.region
  have written : ∀ mid, Wrote tree (.delete key) mid → Holds rows mid := by
    intro mid wrote
    obtain ⟨_,_,_,backing⟩ := holds.recoverable
    have small : (LogEntry.delete key).key.length+(LogEntry.delete key).value.length+13 < 2^32 := by
      simp only [LogEntry.delete,length_nil]
      omega
    refine ⟨backedSame backing (wroteFits small wrote) (.inr rfl) (fun region wrote => deleteSame own region wrote) wrote,?_,?_⟩
    · exact sameShows holds.shows' (deleteSame own region wrote)
    · rw [wrote.frame.config]
      exact holds.trigger
  refine deleteLeaves holds own.named written (fun mid wrote found => ?_) fun mid ts wrote found => ?_
  · have middle := written mid wrote
    have absent : rows.find key = none := by
      rw [Found,showsGet middle.recoverable.region middle.shows' own] at found
      exact Except.ok.inj found
    rwa [Table.eraseAbsent absent]
  · have middle := written mid wrote
    have same := deleteSame own region wrote
    obtain ⟨early,above⟩ := hidingAbove middle.recoverable.region own (fun v held => room v ((same.held own).mp held)) found
    have committed : ts ≠ 0 := by
      obtain ⟨_,_,-,-,stamp⟩ := found
      rw [stamp]
      exact hidingStamp _
    obtain ⟨last,put,hidden,-⟩ := @putVersionRows mid rows key .delete ts middle own committed early
      (by simpa [WriteOp.version,Version.tombstone] using short) above
    exact ⟨last,put,hidden⟩

theorem holdsCollected (holds : Holds rows tree) (m : CommitTs) : Holds rows (collected tree m) :=
  ⟨recoverableCollected holds.recoverable m,showsCollected holds.recoverable.region holds.shows' m,holds.trigger⟩

theorem holdsReopened (holds : Holds rows tree) {config} (trigger : 0 < config.l0CompactionTrigger) :
    ∃ next, openTree tree.dir config = .ok next ∧ Holds rows next := by
  obtain ⟨next,opened,recoverable,shown⟩ := reopened holds.recoverable config
  refine ⟨next,opened,recoverable,shown rows holds.shows',?_⟩
  obtain ⟨_,_,_,backing⟩ := holds.recoverable
  rw [openJournal backing.journal backing.replays config] at opened
  cases opened
  exact trigger

end
end NoeDB.RowRecovery
