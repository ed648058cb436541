import NoeDB.LsmCalls
import NoeDB.LsmCompaction

/-! The point read and the scan of the engine. They agree on a key whose records both
read as the same versions of it. -/
namespace NoeDB.LsmAgreement
open ByteString OrderedTable StorageTypes StorageTables NewestPerKey List Option Execution Except
open Lsm LsmTree LsmReads LsmCalls LsmCompaction BestSoFar

def ReadAlike (key : Bytes) (r : Record) : Prop :=
  match versionOf r with
  | some v => readAs r = some (key,v.commitTs,v.deleted,v.value)
  | none => False

instance (key r) : Decidable (ReadAlike key r) := by
  unfold ReadAlike
  split <;> infer_instance

def SameStamp (r q : Record) : Prop :=
  (versionOf r).map Version.commitTs = (versionOf q).map Version.commitTs → versionOf r = versionOf q

instance (r q) : Decidable (SameStamp r q) := by unfold SameStamp; infer_instance

@[mk_iff]
structure Alike (tree : LsmTree) (key : Bytes) : Prop where
  searchable : ¬userKeyPrefixEnd key < key
  read : ∀ r ∈ scanned tree, Concerns key r → ReadAlike key r
  untied : ∀ r ∈ scanned tree, Concerns key r → ∀ q ∈ scanned tree, Concerns key q → SameStamp r q

instance (tree key) : Decidable (Alike tree key) := decidable_of_iff' _ (alike_iff tree key)

theorem readAlikeVersion (alike : ReadAlike key r) :
    ∃ v, versionOf r = some v ∧ readAs r = some (key,v.commitTs,v.deleted,v.value) := by
  unfold ReadAlike at alike
  split at alike
  · rename_i v found
    exact ⟨v,found,alike⟩
  · cases alike

section
variable {key start stop : Bytes}

theorem concernsSuffix (of : Concerns key r) : ∃ more, r.1 = key ++ more ∧ more.length < 9 := by
  rcases of with decoded | same
  · refine ⟨r.1.drop (r.1.length-8),decoded ▸ decodedPrefix,?_⟩
    rw [length_drop]
    omega
  · exact ⟨[],by simp [same],by simp⟩

theorem coveredWithin (named : key ≠ []) (bounded : stop ≠ []) (inside : outside (some (start,stop)) key = false)
    (of : Concerns key r) : Covered (some (start,stop)) r.1 := by
  obtain ⟨from',upTo⟩ := insideIff.mp inside
  obtain ⟨more,shape,short⟩ := concernsSuffix of
  rw [coveredBounded bounded]
  have below := upTo bounded
  by_cases beginning : key <+: stop
  · have taken : stop.take key.length = key := (List.prefix_iff_eq_take.mp beginning).symm
    have strict : key.length < stop.length := by
      refine lt_of_le_of_ne beginning.length_le fun same => ?_
      rw [beginning.eq_of_length same] at below
      exact lt_irrefl _ below
    refine .inr ⟨key.length,length_pos_of_ne_nil named,strict,?_⟩
    rw [taken]
    refine ⟨from',below,concernsLe of,?_⟩
    rw [shape]
    exact appendLtAppend key (belowFull short)
  · refine .inl ⟨le_trans from' (concernsLe of),?_⟩
    rw [shape]
    exact appendLt below beginning more

theorem coveredConcerns (named : key ≠ []) (searchable : ¬userKeyPrefixEnd key < key)
    (inside : outside (some (start,stop)) key = false) (low : stop = [] → key < List.replicate 64 255)
    (of : Concerns key r) : Covered (some (start,stop)) r.1 := by
  by_cases bounded : stop = []
  · subst bounded
    obtain ⟨more,shape,-⟩ := concernsSuffix of
    refine coveredOpen.mpr ⟨le_trans (insideIff.mp inside).1 (concernsLe of),?_⟩
    rw [shape]
    refine appendLt (low rfl) (fun beginning => ?_) more
    have full := (List.prefix_replicate_iff.mp beginning).2
    refine (searchableIff named).mp searchable (followingNone.mpr fun b mem => ?_)
    exact List.eq_of_mem_replicate (full ▸ mem)
  · exact coveredWithin named bounded inside of

theorem windowRecordsOk (ordered : ∀ w ∈ windows, ¬w.2 < w.1) :
    ∃ records, windowRecords table windows = .ok records := by
  induction windows with
  | nil => exact ⟨[],rfl⟩
  | cons _ _ ih =>
    obtain ⟨here,later⟩ := forall_mem_cons.mp ordered
    obtain ⟨_,done⟩ := ih later
    simp only [windowRecords,MemTable.range,if_neg here,done]
    exact ⟨_,rfl⟩

theorem boundedRecordsOk (table) (bounded : stop ≠ []) (ordered : start ≤ stop) :
    ∃ records, activeRecords (some (start,stop)) table = .ok records := by
  refine windowRecordsOk fun w mem => ?_
  rw [scanWindows,if_neg bounded] at mem
  rcases mem_cons.mp mem with rfl | extra
  · exact not_lt.mpr ordered
  · obtain ⟨_,-,shape⟩ := mem_filterMap.mp extra
    obtain ⟨-,same⟩ := ite_none_right_eq_some.mp shape
    rw [← some.inj same]
    exact not_lt.mpr (leAppend _ _)

theorem activeRecordsOk (table) (inside : outside (some (start,stop)) key = false)
    (low : stop = [] → key < List.replicate 64 255) :
    ∃ records, activeRecords (some (start,stop)) table = .ok records := by
  obtain ⟨from',upTo⟩ := insideIff.mp inside
  by_cases bounded : stop = []
  · subst bounded
    refine windowRecordsOk fun w mem => ?_
    rw [mem_singleton.mp mem]
    exact lt_asymm (lt_of_le_of_lt from' (low rfl))
  · exact boundedRecordsOk table bounded (le_of_lt (lt_of_le_of_lt from' (upTo bounded)))

end

section
variable {tree : LsmTree} {key start stop : Bytes} {view : ReadView} {sorter : Sorter} {records : List Record}
  {bounds : Option (Bytes × Bytes)}

structure Reaches (bounds : Option (Bytes × Bytes)) (key : Bytes) : Prop where
  inside : outside bounds key = false
  covers : ∀ r : Record, Concerns key r → Covered bounds r.1

theorem reachesWithin (named : key ≠ []) (searchable : ¬userKeyPrefixEnd key < key)
    (inside : outside (some (start,stop)) key = false) (low : stop = [] → key < List.replicate 64 255) :
    Reaches (some (start,stop)) key :=
  ⟨inside,fun _ of => coveredConcerns named searchable inside low of⟩

theorem alikeFind (alike : Alike tree key) : tree.findVisibleVersion key view =
      .ok (bestOf (visible view) Version.commitTs (versionsIn key (pointRecords tree key))) := by
  rw [findVisibleFlat,if_neg alike.searchable]
  refine considerRecordsDecode (fun r mem of => ?_) none
  obtain ⟨v,found,-⟩ := readAlikeVersion (alike.read r (memPoint.mp mem).1 of)
  unfold versionOf at found
  cases decoded : decodeOrLegacy r.2 with
  | error => simp [decoded,Except.toOption] at found
  | ok ver => exact ⟨ver,rfl⟩

theorem memVersions (named : key ≠ []) (alike : Alike tree key) :
    v ∈ versionsIn key (pointRecords tree key) ↔ ∃ r ∈ scanned tree, Concerns key r ∧ versionOf r = some v := by
  rw [memVersionsIn]
  constructor
  · rintro ⟨r,mem,of⟩
    exact ⟨r,(memPoint.mp mem).1,of⟩
  · rintro ⟨r,mem,of,found⟩
    exact ⟨r,memPoint.mpr ⟨mem,concernsWindow named alike.searchable of⟩,of,found⟩

theorem memCovered (done : activeRecords bounds tree.active = .ok records) : r ∈ tree.storedRecords bounds ++ records ↔ r ∈ scanned tree ∧ Covered bounds r.1 := by
  have everywhere : Covered none r.1 := trivial
  simp only [scanned,mem_append,memStored,memActiveRecords done]
  constructor
  · rintro (⟨sst,there,held,window⟩ | ⟨held,window⟩)
    · exact ⟨.inl ⟨sst,there,held,everywhere⟩,window⟩
    · exact ⟨.inr (Table.memIff.mpr held),window⟩
  · rintro ⟨⟨sst,there,held,-⟩ | active,window⟩
    · exact .inl ⟨sst,there,held,window⟩
    · exact .inr ⟨Table.memIff.mp active,window⟩

theorem scannedNamed (mem : r ∈ scanned tree) : r.1 ≠ [] := by
  rcases mem_append.mp mem with file | own
  · obtain ⟨sst,-,held,-⟩ := memStored.mp file
    exact sst.named r (Table.memIff.mpr held)
  · exact tree.active.named r own

theorem readAsNamed (mem : r ∈ scanned tree) (read : readAs r = some (user,rest)) : user ≠ [] := by
  unfold readAs at read
  split at read
  · rename_i long
    obtain ⟨_,-,same⟩ := map_eq_some_iff.mp read
    rintro rfl
    have short := congrArg (fun p => p.1.length) same
    simp only [decodeUserKey,length_take,length_nil] at short
    omega
  · have same : r.1 = user := congrArg Prod.fst (some.inj read)
    exact same ▸ scannedNamed mem

theorem storedUntied (alike : Alike tree key) (left : ∃ r ∈ scanned tree, Concerns key r ∧ versionOf r = some v)
    (right : ∃ r ∈ scanned tree, Concerns key r ∧ versionOf r = some w) (same : v.commitTs = w.commitTs) : v = w := by
  obtain ⟨r,mem,of,found⟩ := left
  obtain ⟨q,mem',of',found'⟩ := right
  have equal := alike.untied r mem of q mem' of'
  unfold SameStamp at equal
  rw [found,found'] at equal
  exact some.inj (equal (by simp [same]))

theorem versionsUntied (named : key ≠ []) (alike : Alike tree key)
    (left : v ∈ versionsIn key (pointRecords tree key)) (right : w ∈ versionsIn key (pointRecords tree key))
    (same : v.commitTs = w.commitTs) : v = w := by
  exact storedUntied alike ((memVersions named alike).mp left) ((memVersions named alike).mp right) same

section
variable (named : key ≠ []) (alike : Alike tree key) (reaches : Reaches bounds key)
  (done : activeRecords bounds tree.active = .ok records)
include named alike reaches done

theorem memCandidates {ts deleted value} : (⟨key,ts,deleted,value⟩ : Candidate Bytes CommitTs (Bool × Bytes)) ∈
        (tree.storedRecords bounds ++ records).filterMap (ingest view bounds id) ↔
      (⟨ts,value,deleted⟩ : Version) ∈ versionsIn key (pointRecords tree key) ∧
        visible view ⟨ts,value,deleted⟩ = true := by
  rw [memVersions named alike,visibleIff,mem_filterMap]
  constructor
  · rintro ⟨r,mem,taken⟩
    obtain ⟨_,read,rfl,-,positive,seen⟩ := ingestIff.mp taken
    have of := readAsConcerns read
    have stored := ((memCovered done).mp mem).1
    obtain ⟨⟨_,_⟩,found,same⟩ := readAlikeVersion (alike.read r stored of)
    rw [read] at same
    cases some.inj same
    exact ⟨⟨r,stored,of,found⟩,positive,seen⟩
  · rintro ⟨⟨r,stored,of,found⟩,positive,seen⟩
    obtain ⟨v,found',read⟩ := readAlikeVersion (alike.read r stored of)
    rw [found] at found'
    cases some.inj found'
    refine ⟨r,(memCovered done).mpr ⟨stored,reaches.covers r of⟩,?_⟩
    exact ingestIff.mpr ⟨value,read,rfl,reaches.inside,positive,seen⟩

theorem newestFound {v} :
    (⟨key,v.commitTs,v.deleted,v.value⟩ : Candidate Bytes CommitTs (Bool × Bytes)) ∈ newestOf sorter
        ((tree.storedRecords bounds ++ records).filterMap (ingest view bounds id)) ↔
      tree.findVisibleVersion key view = .ok (some v) := by
  have candidates {ts deleted value} := @memCandidates tree key view records bounds named alike reaches done ts deleted value
  have single : v ∈ versionsIn key (pointRecords tree key) → ∀ d ∈
      (tree.storedRecords bounds ++ records).filterMap (ingest view bounds id),
      d.key = key → d.stamp = v.commitTs → d = ⟨key,v.commitTs,v.deleted,v.value⟩ := by
    rintro own ⟨k,ts,deleted,value⟩ other sameKey sameStamp
    cases sameKey
    cases versionsUntied named alike (candidates.mp other).1 own sameStamp
    rfl
  rw [alikeFind alike,ok.injEq,bestOfUntied fun w other own => versionsUntied named alike other own,
    memNewestAt fun own => single (candidates.mp own).1]
  constructor
  · rintro ⟨own,newest⟩
    obtain ⟨mem,admits⟩ := candidates.mp own
    exact ⟨mem,admits,fun w other yes => newest ⟨key,w.commitTs,w.deleted,w.value⟩ (candidates.mpr ⟨other,yes⟩) rfl⟩
  · rintro ⟨mem,admits,top⟩
    refine ⟨candidates.mpr ⟨mem,admits⟩,?_⟩
    rintro ⟨k,_⟩ other sameKey
    cases sameKey
    obtain ⟨there,yes⟩ := candidates.mp other
    exact top _ there yes

theorem scanShows (value : Bytes) : tree.getVisible key view = .ok (some value) ↔ (key,value) ∈ live (newestOf sorter
      ((tree.storedRecords bounds ++ records).filterMap (ingest view bounds id))) := by
  have found {v} := @newestFound tree key view sorter records bounds named alike reaches done v
  rw [memLive,getVisible,alikeFind alike]
  rw [alikeFind alike] at found
  cases best : bestOf (visible view) Version.commitTs (versionsIn key (pointRecords tree key)) with
  | none =>
    simp only [best,ok.injEq,reduceCtorEq,iff_false] at found
    simp only [bind_none,ok.injEq,reduceCtorEq,false_iff,not_exists]
    exact fun ts kept => @found ⟨ts,value,false⟩ kept
  | some w =>
    simp only [best,ok.injEq,some.injEq] at found
    simp only [bind_some,ok.injEq]
    constructor
    · intro shows
      obtain ⟨kept,same⟩ := ite_none_left_eq_some.mp shows
      refine ⟨w.commitTs,(@found ⟨w.commitTs,value,false⟩).mpr ?_⟩
      rw [← some.inj same,← Bool.not_eq_true _ |>.mp kept]
    · rintro ⟨ts,kept⟩
      cases (@found ⟨ts,value,false⟩).mp kept
      rfl

end

theorem emptyAgrees (done : activeRecords bounds tree.active = .ok records) (value) :
    tree.getVisible [] view = .ok (some value) ↔ ([],value) ∈ live (newestOf sorter
      ((tree.storedRecords bounds ++ records).filterMap (ingest view bounds id))) := by
  have window : pointRecords tree [] = [] := by
    refine eq_nil_iff_forall_not_mem.mpr fun r mem => ?_
    exact not_lt_nil _ (memPoint.mp mem).2.2
  have missing : tree.getVisible [] view = .ok none := by
    rw [getVisible,findVisibleFlat,window]
    rfl
  rw [missing,memLive]
  simp only [ok.injEq,reduceCtorEq,false_iff,not_exists]
  intro _ kept
  obtain ⟨r,mem,taken⟩ := mem_filterMap.mp (newestKept kept).1
  obtain ⟨_,read,-⟩ := ingestIff.mp taken
  exact readAsNamed ((memCovered done).mp mem).1 read rfl

theorem rangeScan (inside : outside (some (start,stop)) key = false) (low : stop = [] → key < List.replicate 64 255) :
    ∃ records, activeRecords (some (start,stop)) tree.active = .ok records ∧
      tree.rangeVisible sorter start stop view = .ok (live (newestOf sorter
        ((tree.storedRecords (some (start,stop)) ++ records).filterMap (ingest view (some (start,stop)) id)))) := by
  obtain ⟨records,done⟩ := activeRecordsOk tree.active inside low
  refine ⟨records,done,?_⟩
  simp [rangeVisible,mergeVisibleAt,mergeVisibleFold,done]

end

theorem pointReadIsScan {tree : LsmTree} {key start stop : Bytes} {view : ReadView} {sorter : Sorter}
    (inside : outside (some (start,stop)) key = false) (alike : key = [] ∨ Alike tree key)
    (low : stop = [] → key < List.replicate 64 255) :
    ∃ pairs, tree.rangeVisible sorter start stop view = .ok pairs ∧ (pairs.map Prod.fst).Pairwise (· < ·) ∧
      ∀ value, tree.getVisible key view = .ok (some value) ↔ (key,value) ∈ pairs := by
  obtain ⟨_,done,scan⟩ := @rangeScan tree key start stop view sorter inside low
  refine ⟨_,scan,liveAscending (newestAscending _ _),fun value => ?_⟩
  by_cases empty : key = []
  · subst empty
    exact emptyAgrees done value
  · have alike := alike.resolve_left empty
    exact scanShows empty alike (reachesWithin empty alike.searchable inside low) done value

def versionCalls : List Call :=
  [.put [97] [1],.putVersion [98] (.put 5 [2]),.putVersion [98] (.put 7 [3]),.delete [97]]

theorem versionReadIsScanned : ∃ tree, Execution.run step (fresh flushing) versionCalls = some tree ∧
    ∀ sorter, ∃ pairs, tree.rangeVisible sorter [] [99] ⟨0,6,[]⟩ = .ok pairs ∧ (pairs.map Prod.fst).Pairwise (· < ·) ∧
      ∀ value, tree.getVisible [98] ⟨0,6,[]⟩ = .ok (some value) ↔ ([98],value) ∈ pairs := by
  obtain ⟨tree,reached,alike⟩ : ∃ tree ∈ run step (fresh flushing) versionCalls, Alike tree [98] := by decide +kernel
  exact ⟨tree,reached,fun sorter => pointReadIsScan (by decide) (.inr alike) (by decide)⟩

def rawKey : Bytes := [97,1,2,3,4,5,6,7,8]

theorem rawKeyIsReadAsVersion : ∃ tree, Execution.run step (fresh .default) [.put rawKey [9]] = some tree ∧
    tree.getVisible [97] .latest = .ok (some [9]) ∧ outside (some ([],[98])) [97] = false ∧
    ∀ sorter, ∃ pairs, tree.rangeVisible sorter [] [98] .latest = .ok pairs ∧ ([97],[9]) ∉ pairs := by
  obtain ⟨tree,reached,point,stored,active⟩ : ∃ tree ∈ run step (fresh .default) [.put rawKey [9]],
      tree.getVisible [97] .latest = .ok (some [9]) ∧ tree.storedRecords (some ([],[98])) = [] ∧
        activeRecords (some ([],[98])) tree.active = .ok [(rawKey,[9])] := by decide +kernel
  refine ⟨tree,reached,point,by decide,fun sorter => ?_⟩
  refine ⟨_,by simp only [rangeVisible,mergeVisibleAt,mergeVisibleFold,stored,active]; rfl,fun mem => ?_⟩
  obtain ⟨_,kept⟩ := memLive.mp mem
  have own : ∀ c ∈ [(rawKey,[9])].filterMap (ingest .latest (some ([],[98])) id), c.key = rawKey := by
    decide +kernel
  cases own _ (newestKept kept).1

def candidates (tree : LsmTree) (view : ReadView) (bounds : Option (Bytes × Bytes)) :
    Except Fault (List (Candidate Bytes CommitTs (Bool × Bytes))) :=
  match activeRecords bounds tree.active with
  | .error fault => .error fault
  | .ok records => .ok ((tree.storedRecords bounds ++ records).filterMap (ingest view bounds id))

def Selects (tree : LsmTree) (view : ReadView) (start stop : Bytes) : Prop :=
  ∃ found all, candidates tree view (some (start,stop)) = .ok found ∧ candidates tree view none = .ok all ∧
    ∀ c, c ∈ found ↔ c ∈ all ∧ start ≤ c.key ∧ c.key < stop

end NoeDB.LsmAgreement
