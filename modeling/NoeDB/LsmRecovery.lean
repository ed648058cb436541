import NoeDB.LsmCalls

/-! What a data directory holds between calls, and that opening it again gives back the
tree it belongs to. -/
namespace NoeDB.LsmRecovery
open ByteString OrderedTable StorageTypes StorageTables LsmDirectory Fallible Lsm LsmTree LsmLevels List Directory Execution Table
open LsmCalls Wal

def Recorded (tree : LsmTree) : Prop :=
  tree.dir.manifest = some tree.manifestOf ∨
    (tree.dir.manifest = none ∧ tree.dir.level0Files = .empty ∧ tree.dir.level1Files = .empty ∧
      tree.level0 = [] ∧ tree.level1 = [] ∧ tree.manifestSeq = 0)

def logOf (records : List LogEntry) : Bytes := header ++ records.flatMap recordBytes

structure Journal (tree : LsmTree) (seg : Segment) (records : List LogEntry) : Prop where
  segments : tree.dir.segments.entries = [(tree.activeId,seg)]
  content : seg.content = logOf records
  fits : ∀ e ∈ records, Fits e
  current : tree.dir.current.getD 1 = tree.activeId
  flushed : tree.flushedWalSegment ≤ tree.activeId
  recorded : Recorded tree
  levels : ∃ l0 l1, Levels tree l0 l1

structure Stored (tree : LsmTree) (seg : Segment) (records : List LogEntry) : Prop extends Journal tree seg records where
  durable : tree.config.walSync = .everyAppend → seg.synced = seg.content.length
  replays : replay .new records = .ok tree.active

theorem storedFresh (config) : Stored (fresh config) .new [] where
  segments := rfl
  content := rfl
  durable _ := rfl
  fits := by simp
  replays := rfl
  current := rfl
  flushed := Nat.zero_le _
  recorded := .inr ⟨rfl,rfl,rfl,rfl,rfl,rfl⟩
  levels := ⟨[],[],rfl,rfl⟩

theorem readLog (fits : ∀ e ∈ records, Fits e) : readAll (logOf records) = .ok records := readAllWritten fits

theorem findSingle {dir : Directory} {id} (single : dir.segments.entries = [(id,seg)]) :
    dir.segments.find id = some seg :=
  memIff.mp (by simp [single])

theorem changeSingle {dir : Directory} {id} (single : dir.segments.entries = [(id,seg)])
    (change) : (dir.changeSegment id change).segments.entries = [(id,change seg)] := by
  simp only [changeSegment,findSingle single,Table.insert,single]
  simp [insertIn]

theorem Stored.replayed
    (stored : Stored tree seg records) : replayAll .new tree.dir.segments.entries = .ok tree.active := by
  simp [stored.segments,replayAll,stored.content,readLog stored.fits,stored.replays]

theorem crashStored (stored : Stored tree seg records)
    (every : tree.config.walSync = .everyAppend) : tree.dir.crash = tree.dir := by
  have whole : seg.crash = seg := by
    rw [Segment.crash,stored.durable every,take_length,← stored.durable every]
  have entries : (tree.dir.segments.mapValues Segment.crash).entries = tree.dir.segments.entries := by
    simp [mapValues,stored.segments,map_cons,map_nil,whole]
  rw [crash,ext entries]

theorem openJournal {tree : LsmTree}
    (journal : Journal tree seg records) (replays : replay .new records = .ok kept) (config) :
    openTree tree.dir config = .ok {tree with active := kept, config, flushedWalSegment := 0, walPending := 0} := by
  have replayed : replayAll .new tree.dir.segments.entries = .ok kept := by
    simp [journal.segments,replayAll,journal.content,readLog journal.fits,replays]
  simp only [openTree,replayed,journal.current,Directory.openSegment,findSingle journal.segments]
  rcases journal.recorded with named | ⟨none,files0,files1,empty0,empty1,zero⟩
  · simp [named,manifestOf]
  · have keys : (empty : Table Nat Sst).keys = [] := rfl
    simp only [none,files0,files1,keys]
    rw [← empty0,← zero]
    simp [empty0,empty1]

theorem openStored (stored : Stored tree seg records) (config) :
    openTree tree.dir config = .ok {tree with config, flushedWalSegment := 0, walPending := 0} :=
  openJournal stored.toJournal stored.replays config

structure Opened (dir : Directory) (active : MemTable) (next : LsmTree) : Prop where
  active : next.active = active
  files0 : next.dir.level0Files = dir.level0Files
  files1 : next.dir.level1Files = dir.level1Files
  level0 : next.level0 = (dir.manifest.map ManifestSnapshot.level0).getD dir.level0Files.keys
  level1 : next.level1 = (dir.manifest.map ManifestSnapshot.level1).getD dir.level1Files.keys

theorem openReplayed {dir active} (replayed : replayAll .new dir.segments.entries = .ok active) (config) :
    ∃ next, openTree dir config = .ok next ∧ Opened dir active next := by
  unfold openTree
  rw [replayed]
  refine ⟨_,rfl,rfl,(openSegmentParts _ _).1,(openSegmentParts _ _).2.1,?_,?_⟩
  · cases dir.manifest <;> rfl
  · cases dir.manifest <;> rfl

theorem journalFrame {tree next : LsmTree} (journal : Journal tree seg records) (frame : Frame tree next)
    (logged : next.dir = tree.dir.changeSegment tree.activeId change)
    (content : (change seg).content = logOf more) (fits : ∀ e ∈ more, Fits e) : Journal next (change seg) more where
  segments := by
    rw [logged,frame.activeId]
    exact changeSingle journal.segments change
  content := content
  fits := fits
  current := by
    rw [logged,frame.activeId,(changeSegmentParts _ _ _).2.2.2]
    exact journal.current
  flushed := by
    rw [frame.flushed,frame.activeId]
    exact journal.flushed
  recorded := by
    obtain ⟨files0,files1,manifest,-⟩ := changeSegmentParts tree.dir tree.activeId change
    unfold Recorded manifestOf
    rw [logged,files0,files1,manifest,frame.level0,frame.level1,frame.sequence]
    exact journal.recorded
  levels := by
    obtain ⟨l0,l1,levels⟩ := journal.levels
    obtain ⟨same0,same1⟩ := frameReaders frame logged
    exact ⟨l0,l1,same0 ▸ levels.level0,same1 ▸ levels.level1⟩

theorem journalWrote {next} (journal : Journal tree seg records) (fits : Fits entry) (wrote : Wrote tree entry next) :
    ∃ change, Appends tree.config.walSync entry change ∧ Journal next (change seg) (records ++ [entry]) := by
  obtain ⟨change,appends,logged⟩ := wrote.logged
  refine ⟨change,appends,journalFrame journal wrote.frame logged ?_ ?_⟩
  · rw [(appends seg).1,journal.content]
    simp [logOf]
  · intro e mem
    rcases mem_append.mp mem with old | new
    · exact journal.fits e old
    · exact mem_singleton.mp new ▸ fits

theorem storedWrote {next} (stored : Stored tree seg records) (fits : Fits entry) (wrote : Wrote tree entry next) :
    ∃ seg, Stored next seg (records ++ [entry]) := by
  obtain ⟨change,appends,journal⟩ := journalWrote stored.toJournal fits wrote
  refine ⟨change seg,journal,fun every => (appends seg).2 (wrote.frame.config ▸ every),?_⟩
  simp [replayAppend,stored.replays,replay,wrote.applied]

theorem storedSynced {next}
    (stored : Stored tree seg records) (synced : Synced tree next) : Stored next seg.sync records where
  toJournal := journalFrame stored.toJournal synced.frame synced.logged stored.content stored.fits
  durable _ := rfl
  replays := synced.active ▸ stored.replays

theorem deletedSegments (dir) (ids : List Nat) :
    (applyAll dir (ids.map fun id dir => dir.deleteSegment id)).segments.entries =
      dir.segments.entries.filter fun e => e.1 ∉ ids := by
  induction ids generalizing dir with
  | nil => simp [applyAll]
  | cons _ _ ih =>
    rw [map_cons,applyAllCons,ih]
    simp only [deleteSegment,erase,eraseIn,filter_filter,mem_cons,not_or,ne_eq]
    simp [Bool.and_comm]

theorem rotateSingle {dir : Directory} {id} (single : dir.segments.entries = [(id,seg)]) :
    (dir.rotate id).segments.entries = [(id,seg.sync),(id+1,.new)] := by
  have synced := changeSingle single Segment.sync
  have absent : (dir.changeSegment id Segment.sync).segments.find (id+1) = none := by
    simp [find,synced,findIn]
  simp only [Directory.rotate,Directory.openSegment,absent,Table.insert,synced]
  simp [insertIn]

theorem flushedSegmentsMem {tree : LsmTree} {id} (bound : tree.flushedWalSegment ≤ tree.activeId) :
    id ∈ tree.flushedSegments ↔ tree.flushedWalSegment ≤ id ∧ id ≤ tree.activeId := by
  simp only [flushedSegments,mem_range'_1]
  omega

theorem flushedDirectory {tree : LsmTree}
    (stored : Journal tree seg records) : (flushed tree).dir.segments.entries = [(tree.activeId+1,.new)] ∧
      (flushed tree).dir.current = some (tree.activeId+1) ∧
      (flushed tree).dir.manifest = some tree.flushedTree.manifestOf := by
  have single : (tree.dir.writeLevel0 (nextSstId tree.dir.level0Files)
      (.writeFromMemtable tree.active)).segments.entries = [(tree.activeId,seg)] := stored.segments
  have rotated := rotateSingle single
  have ids : ∀ id, id ∈ tree.flushedSegments ↔ _ := fun id => flushedSegmentsMem stored.flushed
  simp only [flushed,flushSteps,cons_append,applyAllCons,applyAllAppend]
  refine ⟨?_,?_,rfl⟩
  · simp only [applyAll,foldl_nil,commit]
    refine (deletedSegments _ _).trans ?_
    rw [rotated]
    have old : tree.activeId ∈ tree.flushedSegments := (ids _).mpr ⟨stored.flushed,le_refl _⟩
    have new : tree.activeId+1 ∉ tree.flushedSegments := fun mem => by
      have bound := ((ids _).mp mem).2
      omega
    simp [old,new]
  · simp only [applyAll,foldl_nil,commit]
    exact (applyAllKeep current (fun id dir => dir.deleteSegment id) (fun _ _ => rfl) _ _).trans rfl

theorem storedFlushed (stored : Journal tree seg records) : Stored (flushed tree) .new [] := by
  obtain ⟨segments,current,manifest⟩ := flushedDirectory stored
  obtain ⟨_,l1,levels⟩ := stored.levels
  exact {
    segments
    content := rfl
    durable := fun _ => rfl
    fits := by simp
    replays := rfl
    current := by rw [current]; rfl
    flushed := le_refl _
    recorded := .inl manifest
    levels := ⟨_,l1,flushedLevels levels⟩ }

theorem compactedDirectory (tree merged) : (compacted tree merged).dir.segments = tree.dir.segments ∧
      (compacted tree merged).dir.current = tree.dir.current ∧
      (compacted tree merged).dir.manifest = some tree.compactedTree.manifestOf := by
  simp only [compacted,compactionSteps,cons_append,applyAllCons,applyAllAppend]
  refine ⟨?_,?_,rfl⟩
  · simp only [applyAll,foldl_nil,commit]
    exact (applyAllKeep segments (fun id dir => dir.removeLevel0 id) (fun _ _ => rfl) _ _).trans rfl
  · simp only [applyAll,foldl_nil,commit]
    exact (applyAllKeep current (fun id dir => dir.removeLevel0 id) (fun _ _ => rfl) _ _).trans rfl

theorem journalCompacted (journal : Journal tree seg records) : Journal (compacted tree merged) seg records := by
  obtain ⟨segments,current,manifest⟩ := compactedDirectory tree merged
  obtain ⟨_,_,levels⟩ := journal.levels
  exact {
    segments := by rw [segments]; exact journal.segments
    content := journal.content
    fits := journal.fits
    current := by rw [current]; exact journal.current
    flushed := journal.flushed
    recorded := .inl manifest
    levels := ⟨[],_,compactedLevels levels merged⟩ }

theorem storedReopened (stored : Stored tree seg records) :
    Stored {tree with flushedWalSegment := 0, walPending := 0} seg records := by
  obtain ⟨l0,l1,levels⟩ := stored.levels
  exact {stored with flushed := Nat.zero_le _, levels := ⟨l0,l1,levels.level0,levels.level1⟩}

theorem storedMicro {next}
    (stored : Stored tree seg records) (micro : Micro tree next) : ∃ seg records, Stored next seg records := by
  cases micro with
  | wrote fits wrote =>
    obtain ⟨seg,after⟩ := storedWrote stored fits wrote
    exact ⟨seg,_,after⟩
  | synced synced => exact ⟨_,_,storedSynced stored synced⟩
  | flushed => exact ⟨_,_,storedFlushed stored.toJournal⟩
  | compacted => exact ⟨_,_,journalCompacted stored.toJournal,stored.durable,stored.replays⟩
  | reopened done =>
    rw [openStored stored] at done
    cases done
    exact ⟨_,_,storedReopened stored⟩

theorem microConfig {next} (micro : Micro tree next) : next.config = tree.config := by
  cases micro with
  | wrote _ wrote | synced wrote => exact wrote.frame.config
  | flushed => rfl
  | compacted => rfl
  | reopened done =>
    unfold openTree at done
    split at done <;> cases done
    rfl

theorem movesConfig {next} (moves : Moves tree next) : next.config = tree.config := by
  induction moves with
  | refl => rfl
  | tail _ micro ih => exact (microConfig micro).trans ih

theorem storedMoves {next}
    (stored : Stored tree seg records) (moves : Moves tree next) : ∃ seg records, Stored next seg records := by
  induction moves with
  | refl => exact ⟨_,_,stored⟩
  | tail _ micro ih =>
    obtain ⟨_,_,before⟩ := ih
    exact storedMicro before micro

def mixedCalls : List Call :=
  [.put [97] [1],.putVersion [98] (.put 5 [2]),.put [97] [3],.delete [98],.putBatch [([99],[4]),([97],[5])]]

def compacting : LsmConfig := ⟨20,2,.everyAppend,1,.default⟩

def roomy : LsmConfig := ⟨2^40,4,.everyAppend,1,.default⟩

theorem oversizedPut {key value : Bytes} (fits : Fits (.put key [])) (small : key.length < 2^32)
    (long : value.length = 2^32) (zeros : ∀ b ∈ value, b = 0) :
    ∃ tree fault, run step (fresh roomy) [.put key value] = some tree ∧ openTree tree.dir roomy = .error fault := by
  have named : key ≠ [] := (acceptedIff.mp fits.accepted).1
  have room : (fresh roomy).level0.length < (fresh roomy).config.writeStall.l0StopTrigger := by decide
  obtain ⟨u,tree,written⟩ := putWriteSucceeds value named room
  have wrote := putWriteReturns written
  have bytes : tree.active.bytes = key.length+value.length := by
    have put : MemTable.put .new key value = .ok tree.active := wrote.applied
    rw [MemTable.put,dif_neg named] at put
    rw [← Except.ok.inj put]
    simp [MemTable.insert,MemTable.new,heldBytes,entryBytes]
  have fitting : tree.active.bytes < tree.config.maxMemBytes := by
    have limit : tree.config.maxMemBytes = 2^40 := by rw [wrote.frame.config]; rfl
    omega
  have done : step (fresh roomy) (.put key value) = some tree :=
    stepReturns.mpr (returnsBind.mpr ⟨(),tree,written,settleReturns.mpr (.room fitting)⟩)
  obtain ⟨fault,unread⟩ := oversizedUnread fits long zeros
  obtain ⟨change,appends,logged⟩ := wrote.logged
  have segments : tree.dir.segments.entries = [(1,change .new)] := by
    rw [logged]
    exact changeSingle (storedFresh roomy).segments change
  have content : (change .new).content = header ++ recordBytes (.put key value) := (appends .new).1
  refine ⟨tree,fault,by simp [run,done],?_⟩
  simp [openTree,segments,replayAll,content,unread]

def Written (segments : List (Nat × Segment)) (log : List LogEntry) : Prop :=
  ∃ parts : List (List LogEntry), segments.map (fun s => s.2.content) = parts.map logOf ∧ log = parts.flatten ∧
    ∀ e ∈ log, Fits e

theorem replayAllAppend (table first second) : replayAll table (first ++ second) = match replayAll table first with
      | .error fault => .error fault
      | .ok mid => replayAll mid second := by
  induction first generalizing table with
  | nil => rfl
  | cons s _ ih =>
    simp only [cons_append,replayAll]
    cases readAll s.2.content with
    | error => rfl
    | ok entries =>
      cases done : replay table entries with
      | error => simp [done]
      | ok next =>
        simp only [done]
        exact ih next

theorem replayAllWritten {segments} (written : Written segments log)
    (table) : replayAll table segments = replay table log := by
  obtain ⟨parts,contents,rfl,fits⟩ := written
  induction segments generalizing table parts with
  | nil =>
    cases parts with
    | nil => rfl
    | cons => cases contents
  | cons _ _ ih =>
    cases parts with
    | nil => cases contents
    | cons part more =>
      simp only [map_cons,List.cons.injEq] at contents
      simp only [flatten_cons,mem_append] at fits
      have read := readLog fun e mem => fits e (.inl mem)
      simp only [replayAll,contents.1,read,flatten_cons,replayAppend]
      cases replay table part with
      | error => rfl
      | ok next => exact ih next more contents.2 fun e mem => fits e (.inr mem)

theorem replayFits (fits : ∀ e ∈ log, Fits e) (table) : ∃ next, replay table log = .ok next := by
  induction log generalizing table with
  | nil => exact ⟨table,rfl⟩
  | cons e _ ih =>
    have named : e.key ≠ [] := (acceptedIff.mp (fits e mem_cons_self).accepted).1
    have applied : ∃ mid, replayEntry table e = .ok mid := by
      unfold replayEntry
      cases e.op with
      | put => exact ⟨_,dif_neg named⟩
      | delete => simp [MemTable.delete,MemTable.validateKey,named]
    obtain ⟨mid,first⟩ := applied
    obtain ⟨next,later⟩ := ih (fun e mem => fits e (mem_cons_of_mem _ mem)) mid
    exact ⟨next,by simp [replay,first,later]⟩

theorem tornTail {dir : Directory} {front back : List (Nat × Segment)} {id : Nat} {seg : Segment}
    {earlier records later : List LogEntry} {last : LogEntry} {n : Nat}
    (segments : dir.segments.entries = front ++ (id,seg) :: back) (before : Written front earlier)
    (after : Written back later) (fits : ∀ e ∈ records, Fits e) (lastFits : Fits last)
    (cut : n < (recordBytes last).length) (content : seg.content = logOf records ++ (recordBytes last).take n)
    (config : LsmConfig) :
    (∃ tree, openTree dir config = .ok tree ∧ replay .new (earlier ++ (records ++ later)) = .ok tree.active) ↔
      n = 0 := by
  constructor
  · rintro ⟨tree,opened,-⟩
    by_contra some'
    obtain ⟨_,first⟩ := replayFits before.choose_spec.2.2 .new
    obtain ⟨fault,torn⟩ := readAllTorn fits lastFits (Nat.pos_of_ne_zero some') cut
    have unread : readAll seg.content = .error fault := by
      rw [content]
      exact torn
    have failed : replayAll .new dir.segments.entries = .error fault := by
      simp [segments,replayAllAppend,replayAllWritten before,first,replayAll,unread]
    simp only [openTree,failed] at opened
    cases opened
  · rintro rfl
    have whole : Written dir.segments.entries (earlier ++ (records ++ later)) := by
      obtain ⟨parts,contents,rfl,partFits⟩ := before
      obtain ⟨parts',contents',rfl,partFits'⟩ := after
      refine ⟨parts ++ records :: parts',?_,by simp,?_⟩
      · simp [segments,contents,contents',content]
      · intro e mem
        rcases mem_append.mp mem with old | rest
        · exact partFits e old
        · rcases mem_append.mp rest with here | new
          · exact fits e here
          · exact partFits' e new
    obtain ⟨active,replayed⟩ := replayFits whole.choose_spec.2.2 .new
    have all : replayAll .new dir.segments.entries = .ok active := (replayAllWritten whole .new).trans replayed
    obtain ⟨tree,opened,parts⟩ := openReplayed all config
    exact ⟨tree,opened,parts.active ▸ replayed⟩

def cutLog (lost : Nat) (tree : LsmTree) : Directory :=
  tree.dir.changeSegment tree.activeId fun seg => {seg with content := seg.content.take (seg.content.length-lost)}

def twoPuts : List Call := [.put [97] [1],.put [98] [2]]

theorem tornTailWhole : ∃ tree, Execution.run step (fresh .default) twoPuts = some tree ∧
    ∃ next, openTree (cutLog 19 tree) .default = .ok next ∧
      replay .new ([] ++ ([.put [97] [1]] ++ [])) = .ok next.active := by
  obtain ⟨tree,reached,segments⟩ : ∃ tree ∈ run step (fresh .default) twoPuts, (cutLog 19 tree).segments.entries =
      [] ++ (1,⟨logOf [.put [97] [1]] ++ (recordBytes (.put [98] [2])).take 0,44⟩) :: [] := by decide +kernel
  have whole : Written [] [] := ⟨[],rfl,rfl,by simp⟩
  have fits : ∀ e ∈ [LogEntry.put [97] [1]], Fits e := by decide
  have lastFits : Fits (.put [98] [2]) := by decide
  refine ⟨tree,reached,?_⟩
  exact (tornTail segments whole whole fits lastFits (by decide) rfl .default).mpr rfl

/- The log of two acknowledged puts, cut within the second record: the first one is
not recovered either, since the directory does not open. -/
theorem tornTailFails : (Execution.run step (fresh .default) twoPuts).isSome = true ∧
    ∀ tree ∈ Execution.run step (fresh .default) twoPuts,
      openTree (cutLog 8 tree) .default = .error (corrupt "truncated record body") := by
  decide +kernel

end NoeDB.LsmRecovery
