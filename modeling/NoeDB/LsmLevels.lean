import NoeDB.Lsm

/-! What flush and compaction do to the table files a tree reads. -/
namespace NoeDB.LsmLevels
open OrderedTable StorageTables LsmDirectory Compaction Fallible Lsm LsmTree List Directory

structure Levels (tree : LsmTree) (l0 l1 : List Sst) : Prop where
  level0 : tree.readers0 = l0.map some
  level1 : tree.readers1 = l1.map some

theorem leFoldMax (ids : List Nat) (start) : start ≤ ids.foldl max start ∧ ∀ id ∈ ids, id ≤ ids.foldl max start := by
  induction ids generalizing start with
  | nil => simp
  | cons id _ ih =>
    obtain ⟨above,all⟩ := ih (max start id)
    simp only [foldl_cons,forall_mem_cons]
    exact ⟨le_trans (le_max_left _ _) above,le_trans (le_max_right _ _) above,all⟩

theorem nextSstIdFresh (files : Table Nat Sst) : files.find (nextSstId files) = none := by
  cases found : files.find (nextSstId files) with
  | none => rfl
  | some sst =>
    have used := (leFoldMax files.keys 0).2 _ (Table.memKeys.mpr ⟨sst,found⟩)
    unfold nextSstId at used
    omega

theorem readersKeep {files : Table Nat Sst} {ids : List Nat} {ssts : List Sst}
    (there : ids.map files.find = ssts.map some) (sst : Sst) :
    ids.map (files.insert (nextSstId files) sst).find = ids.map files.find := by
  refine map_congr_left fun id mem => ?_
  have found : files.find id ∈ ssts.map some := there ▸ mem_map.mpr ⟨id,mem,rfl⟩
  have differs : nextSstId files ≠ id := by
    rintro rfl
    rw [nextSstIdFresh] at found
    simp at found
  simp [differs]

theorem readersInsert {files : Table Nat Sst} {ids : List Nat} {ssts : List Sst}
    (there : ids.map files.find = ssts.map some) (sst) :
    (ids ++ [nextSstId files]).map (files.insert (nextSstId files) sst).find = (ssts ++ [sst]).map some := by
  simp [readersKeep there,there]

theorem applyAllKeep {α : Type} (part : Directory → α) (remove)
    (keeps : ∀ id dir, part (remove id dir) = part dir) (ids : List Nat) (dir) :
    part (applyAll dir (ids.map remove)) = part dir := by
  induction ids generalizing dir with
  | nil => rfl
  | cons id _ ih => exact (ih (remove id dir)).trans (keeps id dir)

theorem applyAllCons (dir step steps) : applyAll dir (step :: steps) = applyAll (step dir) steps := rfl

theorem applyAllAppend (dir first second) :
    applyAll dir (first ++ second) = applyAll (applyAll dir first) second := by
  simp [applyAll]

@[simp] theorem openSegmentParts (dir : Directory) (id) :
    (dir.openSegment id).level0Files = dir.level0Files ∧ (dir.openSegment id).level1Files = dir.level1Files ∧
      (dir.openSegment id).manifest = dir.manifest ∧ (dir.openSegment id).current = dir.current := by
  unfold Directory.openSegment
  split <;> simp

@[simp] theorem changeSegmentParts (dir : Directory) (id change) :
    (dir.changeSegment id change).level0Files = dir.level0Files ∧
      (dir.changeSegment id change).level1Files = dir.level1Files ∧
      (dir.changeSegment id change).manifest = dir.manifest ∧ (dir.changeSegment id change).current = dir.current := by
  unfold changeSegment
  split <;> simp

@[simp] theorem rotateParts (dir : Directory) (id) :
    (dir.rotate id).level0Files = dir.level0Files ∧ (dir.rotate id).level1Files = dir.level1Files ∧
      (dir.rotate id).manifest = dir.manifest := by
  simp [Directory.rotate]

def flushed (tree : LsmTree) : LsmTree := {tree.flushedTree with dir := applyAll tree.dir tree.flushSteps}

theorem flushedFiles (tree : LsmTree) : (flushed tree).dir.level0Files =
        tree.dir.level0Files.insert (nextSstId tree.dir.level0Files) (.writeFromMemtable tree.active) ∧
      (flushed tree).dir.level1Files = tree.dir.level1Files := by
  simp only [flushed,flushSteps,cons_append,applyAllCons,applyAllAppend]
  constructor
  · refine (applyAllKeep level0Files (fun id dir => dir.deleteSegment id) (fun _ _ => rfl) _ _).trans ?_
    simp [writeLevel0]
  · refine (applyAllKeep level1Files (fun id dir => dir.deleteSegment id) (fun _ _ => rfl) _ _).trans ?_
    simp [writeLevel0]

theorem flushedLevels (levels : Levels tree l0 l1) :
    Levels (flushed tree) (l0 ++ [.writeFromMemtable tree.active]) l1 where
  level0 := by
    rw [readers0,(flushedFiles tree).1]
    exact readersInsert levels.level0 _
  level1 := by
    rw [readers1,(flushedFiles tree).2]
    exact levels.level1

def compacted (tree : LsmTree) (merged : Sst) : LsmTree :=
  {tree.compactedTree with dir := applyAll tree.dir (tree.compactionSteps merged)}

theorem compactedFiles (tree : LsmTree) (merged) : (compacted tree merged).dir.level1Files =
      tree.dir.level1Files.insert (nextSstId tree.dir.level1Files) merged := by
  simp only [compacted,compactionSteps,cons_append,applyAllCons,applyAllAppend]
  exact applyAllKeep level1Files (fun id dir => dir.removeLevel0 id) (fun _ _ => rfl) _ _

theorem compactedLevels (levels : Levels tree l0 l1) (merged) :
    Levels (compacted tree merged) [] (l1 ++ [merged]) where
  level0 := rfl
  level1 := by
    rw [readers1,compactedFiles]
    exact readersInsert levels.level1 merged

theorem runCompactionReturns {after} : Returns runCompaction tree u after ↔
      ∃ merged, compactLevel0ToL1 tree.readers0 = .ok merged ∧ after = compacted tree merged := by
  simp only [runCompaction,returnsBind,returnsGet,returnsAttempt,returnsModify]
  constructor
  · rintro ⟨_,_,⟨rfl,rfl⟩,merged,_,⟨done,rfl⟩,rfl⟩
    exact ⟨merged,done,rfl⟩
  · rintro ⟨merged,done,rfl⟩
    exact ⟨tree,tree,⟨rfl,rfl⟩,merged,tree,⟨done,rfl⟩,rfl⟩

theorem flushActiveReturns {after} : Returns flushActive tree u after ↔
      after = if tree.active.isEmpty then tree else flushed tree := by
  simp only [flushActive,returnsModify]
  rfl

end NoeDB.LsmLevels
