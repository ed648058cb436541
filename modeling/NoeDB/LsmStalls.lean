import NoeDB.LsmRecovery

/-! The write stall (write_stall.rs) against the compaction that has to clear it: the
number of files in level 0 between two calls. -/
namespace NoeDB.LsmStalls
open ByteString StorageTypes Compaction Fallible Lsm LsmTree LsmLevels Execution
open LsmCalls LsmRecovery

def Accepts (tree : LsmTree) : Prop := Returns gateWrite tree () tree

theorem acceptsIff : Accepts tree ↔ tree.level0.length < tree.config.writeStall.l0StopTrigger := by
  simp [Accepts,gateWriteReturns]

def Few (tree : LsmTree) : Prop := tree.level0.length < max tree.config.l0CompactionTrigger 1

theorem fewFrame (few : Few tree) (frame : Frame tree next) : Few next := by
  unfold Few
  rw [frame.level0,frame.config]
  exact few

theorem fewSettles (few : Few tree) (settles : Settles tree next) : Few next := by
  cases settles with
  | room => exact few
  | flushed _ below =>
    unfold Few
    rw [afterFlushConfig]
    exact lt_of_lt_of_le below (le_max_left _ _)
  | compacted => exact lt_of_lt_of_le Nat.zero_lt_one (le_max_right _ _)

theorem fewPutAll (few : Few tree) (done : Returns (putAll entries) tree u next) : Few next := by
  induction entries generalizing tree with
  | nil =>
    obtain ⟨-,rfl⟩ := returnsPure.mp done
    exact few
  | cons _ _ ih =>
    obtain ⟨_,wrote,later⟩ := putAllReturns done
    exact ih (fewFrame few wrote.frame) later

theorem fewEnters (few : Few tree) (enters : Enters tree call next) : Few next := by
  cases enters with
  | put done => exact fewFrame few (putWriteReturns done).frame
  | putBatch done =>
    obtain ⟨mid,put,synced⟩ := batchWriteReturns done
    exact fewFrame (fewPutAll few put) synced.frame
  | putVersion done => exact fewFrame few (versionWriteReturns done).2.frame
  | deleteOnly done => exact fewFrame few (deleteWriteReturns done).1.frame
  | deleteHidden done hidden =>
    exact fewFrame (fewFrame few (deleteWriteReturns done).1.frame) (versionWriteReturns hidden).2.frame
  | deleteAfter done hidden =>
    obtain ⟨_,wrote,settles⟩ := putVersionReturns.mp hidden
    have before := fewFrame few (deleteWriteReturns done).1.frame
    exact fewSettles (fewFrame before (versionWriteReturns wrote).2.frame) settles

def Clear (tree : LsmTree) : Prop := Few tree ∧ ∃ seg records, Stored tree seg records

theorem clearStep (clear : Clear tree) (fits : FileFits call) (done : step tree call = some next) : Clear next := by
  obtain ⟨few,_,_,stored⟩ := clear
  refine ⟨?_,storedMoves stored (stepMoves (fileFitsLoggable fits) done)⟩
  rcases stepEnters done with ⟨_,enters,settles⟩ | ⟨-,synced⟩ | ⟨-,opened⟩
  · exact fewSettles (fewEnters few enters) settles
  · exact fewFrame few synced.frame
  · rw [openStored stored] at opened
    cases opened
    exact few

theorem clearRun {config} (fits : ∀ c ∈ calls, FileFits c)
    (reached : run step (fresh config) calls = some tree) : Clear tree := by
  have start : Clear (fresh config) := ⟨lt_of_lt_of_le Nat.zero_lt_one (le_max_right _ _),_,_,storedFresh config⟩
  exact runInvariant (fun s c next clear ok done => clearStep clear ok done) start (admissibleAll fits _) reached

theorem putSucceeds (stored : Stored tree seg records) (accepts : Accepts tree) (fits : FileFits (.put key value))
    (named : key ≠ []) : ∃ next, step tree (.put key value) = some next := by
  obtain ⟨u,mid,written⟩ := putWriteSucceeds value named (acceptsIff.mp accepts)
  have wrote := putWriteReturns written
  have filled := (putActive wrote.applied).1
  obtain ⟨_,_,after⟩ := storedMoves stored (wroteMoves wrote (fileFitsLoggable fits))
  obtain ⟨next,settles⟩ := settlesExists (.inl filled) after.levels
  exact ⟨next,stepReturns.mpr (returnsBind.mpr ⟨(),mid,written,settleReturns.mpr settles⟩)⟩

theorem writesAccepted {config : LsmConfig} {calls : List Call} {tree : LsmTree}
    (below : max config.l0CompactionTrigger 1 ≤ config.writeStall.l0StopTrigger)
    (fits : ∀ c ∈ calls, FileFits c) (reached : Execution.run step (fresh config) calls = some tree) :
    Accepts tree ∧ ∀ key value, key ≠ [] → FileFits (.put key value) →
      ∃ next, step tree (.put key value) = some next := by
  obtain ⟨few,_,_,stored⟩ := clearRun fits reached
  have same : tree.config = config := movesConfig (runMoves (fun c mem => fileFitsLoggable (fits c mem)) reached)
  have accepts : Accepts tree := by
    rw [acceptsIff]
    unfold Few at few
    rw [same] at few ⊢
    exact lt_of_lt_of_le few below
  exact ⟨accepts,fun key value named small => putSucceeds stored accepts small named⟩

theorem writesAcceptedDefault : ∃ tree, Execution.run step (fresh .default) mixedCalls = some tree ∧
    Accepts tree ∧ ∃ next, step tree (.put [97] [9]) = some next := by
  obtain ⟨tree,reached,-⟩ : ∃ tree ∈ run step (fresh .default) mixedCalls, True := by decide +kernel
  have fits : ∀ c ∈ mixedCalls, FileFits c := by decide
  obtain ⟨accepts,later⟩ := writesAccepted (by decide) fits reached
  exact ⟨tree,reached,accepts,later [97] [9] (by simp) (by decide)⟩

theorem putFlushes (named : key ≠ []) (accepts : Accepts tree)
    (large : tree.config.maxMemBytes ≤ value.length) (few : tree.level0.length+1 < tree.config.l0CompactionTrigger) :
    ∃ next, step tree (.put key value) = some next ∧ next.level0.length = tree.level0.length+1 ∧
      next.config = tree.config := by
  obtain ⟨u,mid,written⟩ := putWriteSucceeds value named (acceptsIff.mp accepts)
  have wrote := putWriteReturns written
  obtain ⟨filled,bytes,-⟩ := putActive wrote.applied
  have flush : afterFlush mid = flushed mid := by simp [afterFlush,filled]
  have count : (flushed mid).level0.length = tree.level0.length+1 := by
    simp [flushed,flushedTree,wrote.frame.level0]
  have full : mid.config.maxMemBytes ≤ mid.active.bytes := by
    rw [wrote.frame.config]
    exact le_trans large bytes
  have below : (afterFlush mid).level0.length < mid.config.l0CompactionTrigger := by
    rw [flush,count,wrote.frame.config]
    exact few
  refine ⟨afterFlush mid,?_,by rw [flush,count],by rw [afterFlushConfig,wrote.frame.config]⟩
  exact stepReturns.mpr (returnsBind.mpr ⟨(),mid,written,settleReturns.mpr (.flushed full below)⟩)

theorem putsFlush {key value} (named : key ≠ []) {n tree} (large : tree.config.maxMemBytes ≤ value.length)
    (stop : tree.level0.length+n ≤ tree.config.writeStall.l0StopTrigger)
    (few : tree.level0.length+n < tree.config.l0CompactionTrigger) :
    ∃ next, run step tree (List.replicate n (.put key value)) = some next ∧
      next.level0.length = tree.level0.length+n ∧ next.config = tree.config := by
  induction n generalizing tree with
  | zero => exact ⟨tree,rfl,rfl,rfl⟩
  | succ _ ih =>
    obtain ⟨mid,one,_,config⟩ := putFlushes named (acceptsIff.mpr (by omega)) large (by omega)
    obtain ⟨next,more,_,same⟩ := @ih mid (by rw [config]; exact large) (by rw [config]; omega) (by rw [config]; omega)
    refine ⟨next,?_,by omega,same.trans config⟩
    simp [List.replicate_succ,run,one,more]

theorem stalledFails (stalled : ¬Accepts tree) (key value entries) :
    step tree (.put key value) = none ∧ step tree (.putBatch entries) = none ∧ step tree (.delete key) = none := by
  have gated : ∀ {α : Type} {rest : Unit → Act α} {a next}, ¬Returns (gateWrite >>= rest) tree a next := by
    intro α _ a next done
    obtain ⟨_,_,gate,-⟩ := returnsBind.mp done
    obtain ⟨room,-⟩ := gateWriteReturns.mp gate
    exact stalled (acceptsIff.mpr room)
  refine ⟨?_,?_,?_⟩
  all_goals
    rw [Option.eq_none_iff_forall_ne_some]
    intro _ done
    rcases stepEnters done with ⟨_,enters,-⟩ | ⟨other,-⟩ | ⟨other,-⟩
    · cases enters <;> exact gated ‹_›
    · cases other
    · cases other

/- Thirty-two puts of a value that fills the table: the stall stops at 32 files, the
compaction waits for 64. -/
theorem throughputStalls : ∃ tree, Execution.run step (fresh .throughput)
    (List.replicate 32 (.put [1] (List.replicate (16*1024*1024) 0))) = some tree ∧
      ∀ key value entries, step tree (.put key value) = none ∧ step tree (.putBatch entries) = none ∧
        step tree (.delete key) = none := by
  have large : (fresh .throughput).config.maxMemBytes ≤ (List.replicate (16*1024*1024) (0 : UInt8)).length := by
    rw [List.length_replicate]
    exact le_refl _
  have named : ([1] : Bytes) ≠ [] := by simp
  obtain ⟨tree,reached,count,config⟩ := putsFlush named (n := 32) large (by decide) (by decide)
  refine ⟨tree,reached,stalledFails ?_⟩
  rw [acceptsIff,count,config]
  decide

end NoeDB.LsmStalls
