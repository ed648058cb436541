import NoeDB.LsmCompaction

/-! Pruning old versions from the active table (`gc_mvcc_active` in lsm_mvcc.rs): what
readers above the watermark see before and after. -/
namespace NoeDB.LsmGc
open ByteString OrderedTable StorageTypes StorageTables NewestPerKey Fallible List Table
open Lsm LsmTree LsmReads LsmCompaction BestSoFar

def collected (tree : LsmTree) (minRetainTs : CommitTs) : LsmTree :=
  {tree with active := (tree.gcKeys minRetainTs).foldl MemTable.remove tree.active}

theorem gcReturns {next} : Returns (gcMvccActive minRetainTs) tree n next ↔
      n = (tree.gcKeys minRetainTs).length ∧ next = collected tree minRetainTs := by
  unfold gcMvccActive
  rw [returnsGetBind]
  simp only [returnsBind,returnsModify,returnsPure]
  constructor
  · rintro ⟨_,_,rfl,count,rfl⟩
    exact ⟨count,rfl⟩
  · rintro ⟨count,rfl⟩
    exact ⟨(),_,rfl,count,rfl⟩

theorem removeAllEntries (keys : List Bytes) (table) :
    (keys.foldl MemTable.remove table).map.entries = table.map.entries.filter fun r => r.1 ∉ keys := by
  induction keys generalizing table with
  | nil => simp
  | cons _ _ ih =>
    rw [foldl_cons,ih]
    simp only [MemTable.remove,erase,eraseIn,filter_filter,mem_cons,not_or,ne_eq]
    simp [Bool.and_comm]

section
variable {tree : LsmTree} {m : CommitTs}

def stays (tree : LsmTree) (m : CommitTs) (r : Record) : Bool := !decide (Pruned tree.active.iter m r)

theorem collectedEntries : (collected tree m).active.map.entries = tree.active.map.entries.filter (stays tree m) := by
  simp only [collected,removeAllEntries]
  refine filter_congr fun r mem => ?_
  have unique : r.1 ∈ tree.gcKeys m ↔ Pruned tree.active.iter m r := by
    simp only [gcKeys,mem_map,mem_filter,decide_eq_true_eq]
    constructor
    · rintro ⟨q,⟨inside,pruned⟩,same⟩
      have one : q.2 = r.2 := by
        have first : tree.active.map.find r.1 = some q.2 := memIff.mp (same ▸ inside)
        exact Option.some.inj (first.symm.trans (memIff.mp mem))
      have eq : q = r := Prod.ext same one
      exact eq ▸ pruned
    · intro pruned
      exact ⟨r,⟨mem,pruned⟩,rfl⟩
  simp [stays,unique]

theorem prunedVersion (pruned : Pruned records m r) :
    ∃ v, decodeOrLegacy r.2 = .ok v ∧ v.commitTs ≠ 0 ∧ v.commitTs < m := by
  unfold Pruned at pruned
  split at pruned
  · rename_i v decoded
    refine ⟨v,decoded,?_,pruned.2.1⟩
    intro zero
    rw [zero] at pruned
    exact absurd pruned.1 (lt_irrefl _)
  · cases pruned

def Newer (m : CommitTs) (r q : Record) : Prop :=
  match versionOf r,versionOf q with
  | some v,some w => v.commitTs < w.commitTs ∧ w.commitTs ≤ m
  | _,_ => False

theorem newerIff :
    (∃ v ∈ versionOf r, ∃ w ∈ versionOf q, v.commitTs < w.commitTs ∧ w.commitTs ≤ m) ↔ Newer m r q := by
  unfold Newer
  cases versionOf r with
  | none => simp
  | some =>
    cases versionOf q with
    | none => simp
    | some => simp

instance (m r q) : Decidable (Newer m r q) := decidable_of_iff _ newerIff

def Superseded (tree : LsmTree) (m : CommitTs) (key : Bytes) : Prop :=
  ∀ r ∈ tree.active.iter, Pruned tree.active.iter m r → Concerns key r →
    ∃ q ∈ scanned tree, Concerns key q ∧ Newer m r q

instance (tree m key) : Decidable (Superseded tree m key) := by unfold Superseded; infer_instance

theorem newerVersions (newer : Newer m r q) (decoded : versionOf r = some v) :
    ∃ w, versionOf q = some w ∧ v.commitTs < w.commitTs ∧ w.commitTs ≤ m := by
  unfold Newer at newer
  rw [decoded] at newer
  cases found : versionOf q with
  | none =>
    rw [found] at newer
    cases newer
  | some w =>
    rw [found] at newer
    exact ⟨w,rfl,newer⟩

theorem findSomeDropped {α β : Type} {f : α → Option β} {kept} {items : List α}
    (nothing : ∀ a ∈ items, kept a = false → f a = none) : (items.filter kept).findSome? f = items.findSome? f := by
  induction items with
  | nil => rfl
  | cons a _ ih =>
    obtain ⟨here,later⟩ := forall_mem_cons.mp nothing
    cases stay : kept a with
    | true => rw [filter_cons_of_pos stay,List.findSome?_cons,List.findSome?_cons,ih later]
    | false => rw [filter_cons_of_neg (by simp [stay]),List.findSome?_cons,here stay,ih later]

theorem collectedFind {key : Bytes} {view} (superseded : Superseded tree m key) (retained : m ≤ view.snapshotTs) :
    (collected tree m).findVisibleVersion key view = tree.findVisibleVersion key view := by
  rw [findVisibleFlat,findVisibleFlat]
  by_cases ordered : userKeyPrefixEnd key < key
  · rw [if_pos ordered,if_pos ordered]
  rw [if_neg ordered,if_neg ordered]
  let window : List Record := tree.active.map.entries.filter fun r => key ≤ r.1 ∧ r.1 < userKeyPrefixEnd key
  let files : List Record := (tree.readers0.reverse ++ tree.readers1.reverse).reduceOption.flatMap (windowOf key)
  have before : pointRecords tree key = window ++ files := rfl
  have after : pointRecords (collected tree m) key = window.filter (stays tree m) ++ files := by
    unfold pointRecords
    rw [collectedEntries,filter_comm]
    rfl
  have gone : ∀ r ∈ window, stays tree m r = false → r ∈ tree.active.iter ∧ Pruned tree.active.iter m r := by
    intro r mem dropped
    exact ⟨mem_of_mem_filter mem,by simpa [stays] using dropped⟩
  have faults : faultIn key (window.filter (stays tree m) ++ files) = faultIn key (window ++ files) := by
    unfold faultIn
    rw [List.findSome?_append,List.findSome?_append,findSomeDropped]
    intro r mem dropped
    obtain ⟨v,decoded,-⟩ := prunedVersion (gone r mem dropped).2
    simp [decoded]
  have best : bestOf (visible view) Version.commitTs (versionsIn key (window.filter (stays tree m) ++ files)) =
      bestOf (visible view) Version.commitTs (versionsIn key (window ++ files)) := by
    unfold versionsIn
    rw [filterMap_append,filterMap_append]
    refine bestOfDropped fun r mem dropped v version _ => ?_
    obtain ⟨active,pruned⟩ := gone r mem dropped
    obtain ⟨of,decoded⟩ := Option.ite_none_right_eq_some.mp version
    obtain ⟨q,inside,concerns,newer⟩ := superseded r active pruned of
    obtain ⟨w,other,above,kept⟩ := newerVersions newer decoded
    have named : key ≠ [] := by
      rintro rfl
      have bounds := (mem_filter.mp mem).2
      simp only [decide_eq_true_eq] at bounds
      exact absurd bounds.2 (not_lt_nil _)
    have there : q ∈ window ++ files := before ▸ memPoint.mpr ⟨inside,concernsWindow named ordered concerns⟩
    refine ⟨w,?_,?_,above⟩
    · rw [← filterMap_append]
      exact mem_filterMap.mpr ⟨q,there,Option.ite_none_right_eq_some.mpr ⟨concerns,other⟩⟩
    · have positive : w.commitTs ≠ 0 := by
        intro zero
        rw [zero] at above
        exact absurd above (not_lt.mpr (UInt64.zero_le))
      have seen : ¬view.snapshotTs < w.commitTs := not_lt.mpr (le_trans kept retained)
      simp [visible,ReadView.isVisible,positive,seen]
  rw [before,after,considerRecordsFault,considerRecordsFault,faults]
  cases faultIn key (window ++ files) with
  | some => rfl
  | none => exact congrArg Except.ok best

def ScanNewer (m : CommitTs) (r q : Record) : Prop :=
  match readAs r,readAs q with
  | some (user,ts,_),some (user',ts',_) => user' = user ∧ ts < ts' ∧ ts' ≤ m ∧ q.1 ≤ r.1
  | _,_ => False

instance (m r q) : Decidable (ScanNewer m r q) := by
  unfold ScanNewer
  split <;> infer_instance

def ScanSuperseded (tree : LsmTree) (m : CommitTs) : Prop :=
  ∀ r ∈ tree.active.iter, Pruned tree.active.iter m r → ∃ q ∈ scanned tree, ScanNewer m r q

instance (tree m) : Decidable (ScanSuperseded tree m) := by unfold ScanSuperseded; infer_instance

theorem scanNewerParts (newer : ScanNewer m r q) (read : readAs r = some (user,ts,rest)) :
    ∃ ts' deleted value, readAs q = some (user,ts',deleted,value) ∧ ts < ts' ∧ ts' ≤ m ∧ q.1 ≤ r.1 := by
  unfold ScanNewer at newer
  rw [read] at newer
  cases found : readAs q with
  | none =>
    rw [found] at newer
    cases newer
  | some parts =>
    obtain ⟨_,ts',deleted,value⟩ := parts
    rw [found] at newer
    obtain ⟨rfl,rest⟩ := newer
    exact ⟨ts',deleted,value,rfl,rest⟩

theorem collectedWindows (windows) : windowRecords (collected tree m).active windows =
      (windowRecords tree.active windows).map (List.filter (stays tree m)) := by
  induction windows with
  | nil => rfl
  | cons w rest ih =>
    simp only [windowRecords,MemTable.range,ih,collectedEntries]
    by_cases ordered : w.2 < w.1
    · simp only [if_pos ordered]
      rfl
    · simp only [if_neg ordered]
      cases windowRecords tree.active rest with
      | error => rfl
      | ok =>
        simp only [Except.map,filter_append]
        rw [filter_comm]

theorem collectedActive (bounds) : activeRecords bounds (collected tree m).active =
      (activeRecords bounds tree.active).map (List.filter (stays tree m)) := by
  cases bounds with
  | none => exact congrArg Except.ok collectedEntries
  | some => exact collectedWindows _

theorem collectedScan
    (clear : Unambiguous tree) (superseded : ScanSuperseded tree m) (retained : m ≤ view.snapshotTs) :
    mergeVisibleAt sorter (collected tree m) view bounds = mergeVisibleAt sorter tree view bounds := by
  have stored : (collected tree m).storedRecords bounds = tree.storedRecords bounds := rfl
  simp only [mergeVisibleAt,mergeVisibleFold,collectedActive,stored]
  cases done : activeRecords bounds tree.active with
  | error => rfl
  | ok records =>
    have same : newestOf sorter ((tree.storedRecords bounds ++ records.filter (stays tree m)).filterMap
        (ingest view bounds id)) =
        newestOf sorter ((tree.storedRecords bounds ++ records).filterMap (ingest view bounds id)) := by
      refine newestDropped (candidatesUntied clear done) ?_ ?_
      · intro c mem
        obtain ⟨r,inside,taken⟩ := mem_filterMap.mp mem
        refine mem_filterMap.mpr ⟨r,?_,taken⟩
        rcases mem_append.mp inside with file | active
        · exact mem_append_left _ file
        · exact mem_append_right _ (mem_of_mem_filter active)
      · intro c mem gone
        obtain ⟨r,inside,taken⟩ := mem_filterMap.mp mem
        rcases mem_append.mp inside with file | active
        · exact absurd (mem_filterMap.mpr ⟨r,mem_append_left _ file,taken⟩) gone
        have dropped : stays tree m r = false := by
          cases stay : stays tree m r with
          | false => rfl
          | true =>
            have kept := mem_append_right (tree.storedRecords bounds) (mem_filter.mpr ⟨active,stay⟩)
            exact absurd (mem_filterMap.mpr ⟨r,kept,taken⟩) gone
        have pruned : Pruned tree.active.iter m r := by simpa [stays] using dropped
        obtain ⟨held,covered⟩ := (memActiveRecords done).mp active
        obtain ⟨_,read,-,within,-⟩ := ingestIff.mp taken
        obtain ⟨q,there,newer⟩ := superseded r (memIff.mpr held) pruned
        obtain ⟨ts,deleted,value',read',above,kept,earlier⟩ := scanNewerParts newer read
        have covered' : Covered bounds q.1 := coveredBelow covered within (concernsLe (readAsConcerns read')) earlier
        have found : q ∈ tree.storedRecords bounds ++ records := by
          rcases mem_append.mp there with file | own
          · obtain ⟨sst,reader,held',-⟩ := memStored.mp file
            exact mem_append_left _ (memStored.mpr ⟨sst,reader,held',covered'⟩)
          · exact mem_append_right _ ((memActiveRecords done).mpr ⟨memIff.mp own,covered'⟩)
        refine ⟨⟨c.key,ts,deleted,value'⟩,mem_filterMap.mpr ⟨q,found,?_⟩,rfl,above⟩
        refine ingestIff.mpr ⟨value',read',rfl,within,?_,le_trans kept retained⟩
        rintro rfl
        exact absurd above (not_lt.mpr UInt64.zero_le)
    simp only [Except.map,same]

end

theorem gcKeepsReads {tree : LsmTree} {m : CommitTs} {view : ReadView} (retained : m ≤ view.snapshotTs) :
    ∃ n next, Returns (gcMvccActive m) tree n next ∧
      (∀ key, Superseded tree m key → next.getVisible key view = tree.getVisible key view) ∧
      (Unambiguous tree → ScanSuperseded tree m → ∀ sorter start stop,
        next.rangeVisible sorter start stop view = tree.rangeVisible sorter start stop view) := by
  refine ⟨_,_,gcReturns.mpr ⟨rfl,rfl⟩,?_,?_⟩
  · intro _ superseded
    unfold getVisible
    rw [collectedFind superseded retained]
  · intro clear superseded _ _ _
    exact collectedScan clear superseded retained

def versionAt (ts : CommitTs) (value : UInt8) : Act Unit := putVersion [97] (.put ts [value])

def oldVersions : LsmTree := (execute (do versionAt 3 1; versionAt 5 2) (fresh .default)).2

theorem gcKeepsOldVersions : ∃ n next, Returns (gcMvccActive 7) oldVersions n next ∧
    next.getVisible [97] ⟨0,8,[]⟩ = oldVersions.getVisible [97] ⟨0,8,[]⟩ ∧
    ∀ sorter, next.rangeVisible sorter [] [] ⟨0,8,[]⟩ = oldVersions.rangeVisible sorter [] [] ⟨0,8,[]⟩ := by
  have retained : (7 : CommitTs) ≤ (⟨0,8,[]⟩ : ReadView).snapshotTs := by decide
  obtain ⟨n,next,done,points,scans⟩ := @gcKeepsReads oldVersions 7 _ retained
  have superseded : Superseded oldVersions 7 [97] := by decide +kernel
  have clear : Unambiguous oldVersions := by decide +kernel
  have all : ScanSuperseded oldVersions 7 := by decide +kernel
  exact ⟨n,next,done,points [97] superseded,fun sorter => scans clear all sorter [] []⟩

def spannedVersions : LsmTree := (execute (do versionAt 5 1; versionAt 10 2) (fresh .default)).2

theorem gcDropsVisibleVersion : spannedVersions.getVisible [97] ⟨0,8,[]⟩ = .ok (some [1]) ∧
      (execute (gcMvccActive 7) spannedVersions).1 = .ok 1 ∧
      (execute (gcMvccActive 7) spannedVersions).2.getVisible [97] ⟨0,8,[]⟩ = .ok none := by
  decide +kernel

end NoeDB.LsmGc
