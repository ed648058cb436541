import NoeDB.BestSoFar
import NoeDB.Lsm
import Mathlib.Data.List.ReduceOption

/-! What the two read paths of the engine compute: the point read as the best version
over all records of the key, the scan as the newest candidate of every key. -/
namespace NoeDB.LsmReads
open ByteString OrderedTable StorageTypes StorageTables NewestPerKey Lsm BestSoFar List Option LsmTree Table Version

section
variable (view : ReadView) (userKey : Bytes)

def visible (ver : Version) : Bool := view.isVisible ver none

def versionsIn (records : List Record) : List Version :=
  records.filterMap fun r => if Concerns userKey r then (decodeOrLegacy r.2).toOption else none

def Decodes (records : List Record) : Prop :=
  ∀ r ∈ records, Concerns userKey r → ∃ ver, decodeOrLegacy r.2 = .ok ver

def windowOf (sst : Sst) : List Record := sst.scanRange userKey (userKeyPrefixEnd userKey)

def versionsOf (files : List Sst) : List Version := files.flatMap fun f => versionsIn userKey (windowOf userKey f)

variable {view userKey}

theorem visibleIff : visible view v = true ↔ v.commitTs ≠ 0 ∧ v.commitTs ≤ view.snapshotTs := by
  unfold visible ReadView.isVisible
  by_cases zero : v.commitTs = 0
  · simp [zero]
  · by_cases above : view.snapshotTs < v.commitTs
    · simp [zero,above,not_le.mpr above]
    · simp [zero,above,not_lt.mp above]

theorem considerKeep : consider view = keep (visible view) commitTs := by
  funext best ver
  cases best <;> rfl

theorem considerRecordsDecode (decode : Decodes userKey records) (best) : considerRecords view userKey best records =
      .ok (bestFrom (visible view) commitTs best (versionsIn userKey records)) := by
  induction records generalizing best with
  | nil => rfl
  | cons r _ ih =>
    have later := ih fun r mem => decode r (mem_cons_of_mem _ mem)
    by_cases here : Concerns userKey r
    · obtain ⟨_,found⟩ := decode r mem_cons_self here
      simp only [considerRecords,if_pos here,found,later]
      simp [versionsIn,here,found,Except.toOption,bestFrom,considerKeep]
    · simp only [considerRecords,if_neg here,later]
      simp [versionsIn,here]

def faultIn (userKey : Bytes) (records : List Record) : Option Fault :=
  records.findSome? fun r =>
    if Concerns userKey r then
      match decodeOrLegacy r.2 with
      | .error fault => some fault
      | .ok _ => none
    else none

theorem considerRecordsFault (records best) :
    considerRecords view userKey best records = match faultIn userKey records with
      | some fault => .error fault
      | none => .ok (bestFrom (visible view) commitTs best (versionsIn userKey records)) := by
  induction records generalizing best with
  | nil => rfl
  | cons r _ ih =>
    by_cases here : Concerns userKey r
    · simp only [considerRecords,if_pos here,faultIn,List.findSome?_cons]
      cases decoded : decodeOrLegacy r.2 with
      | error => rfl
      | ok =>
        simp only [ih]
        simp only [faultIn,versionsIn,filterMap_cons,if_pos here,decoded,Except.toOption,bestFrom,
          foldl_cons,considerKeep]
    · simp only [considerRecords,if_neg here,ih]
      simp only [faultIn,versionsIn,List.findSome?_cons,filterMap_cons,if_neg here]

theorem considerRecordsAppend (best first second) :
    considerRecords view userKey best (first ++ second) = match considerRecords view userKey best first with
      | .error fault => .error fault
      | .ok mid => considerRecords view userKey mid second := by
  induction first generalizing best with
  | nil => rfl
  | cons r _ ih =>
    by_cases here : Concerns userKey r
    · simp only [cons_append,considerRecords,if_pos here]
      cases decodeOrLegacy r.2 with
      | error => rfl
      | ok => exact ih _
    · simp [cons_append,considerRecords,if_neg here,ih]

theorem memWindow : r ∈ windowOf userKey f ↔
    f.get r.1 = some r.2 ∧ userKey ≤ r.1 ∧ r.1 < userKeyPrefixEnd userKey := by
  simp only [windowOf,Sst.scanRange,mem_filter,decide_eq_true_eq]
  exact and_congr_left' memIff

theorem considerFilesFlat (best files) : considerFiles view userKey best files =
      considerRecords view userKey best (files.reduceOption.flatMap (windowOf userKey)) := by
  induction files generalizing best with
  | nil => rfl
  | cons file _ ih =>
    cases file with
    | none => exact ih best
    | some sst =>
      simp only [considerFiles,reduceOption_cons_of_some,flatMap_cons,considerRecordsAppend,windowOf]
      cases considerRecords view userKey best (sst.scanRange userKey (userKeyPrefixEnd userKey)) with
      | error => rfl
      | ok next => exact ih next

def pointRecords (tree : LsmTree) (userKey : Bytes) : List Record :=
  (tree.active.map.entries.filter fun r => userKey ≤ r.1 ∧ r.1 < userKeyPrefixEnd userKey) ++
    (tree.readers0.reverse ++ tree.readers1.reverse).reduceOption.flatMap (windowOf userKey)

theorem findVisibleFlat (tree) : tree.findVisibleVersion userKey view =
    if userKeyPrefixEnd userKey < userKey then .error .panicked
    else considerRecords view userKey none (pointRecords tree userKey) := by
  unfold findVisibleVersion MemTable.range
  by_cases above : userKeyPrefixEnd userKey < userKey
  · simp [if_pos above]
  · simp only [if_neg above,pointRecords,considerRecordsAppend]
    cases considerRecords view userKey none
        (tree.active.map.entries.filter fun r => userKey ≤ r.1 ∧ r.1 < userKeyPrefixEnd userKey) with
    | error => rfl
    | ok best => exact considerFilesFlat best _

theorem decodedPrefix : key = decodeUserKey key ++ key.drop (key.length-8) := (take_append_drop _ _).symm

theorem concernsWindow (named : userKey ≠ []) (ordered : ¬userKeyPrefixEnd userKey < userKey) {r : Record}
    (of : Concerns userKey r) : userKey ≤ r.1 ∧ r.1 < userKeyPrefixEnd userKey := by
  have above := (searchableIff named).mp ordered
  have begins : ∃ more, r.1 = userKey ++ more := by
    rcases of with decoded | same
    · exact ⟨_,decoded ▸ decodedPrefix⟩
    · exact ⟨[],by simp [same]⟩
  obtain ⟨more,shape⟩ := begins
  rw [shape]
  exact ⟨leAppend _ _,followingAbove above more⟩

theorem decodesConsidered
    (done : considerRecords view userKey best records = .ok found) : Decodes userKey records := by
  induction records generalizing best with
  | nil => intro r mem; cases mem
  | cons r _ ih =>
    intro q mem of
    unfold considerRecords at done
    by_cases here : Concerns userKey r
    · rw [if_pos here] at done
      cases decoded : decodeOrLegacy r.2 with
      | error =>
        rw [decoded] at done
        cases done
      | ok ver =>
        simp only [decoded] at done
        rcases mem_cons.mp mem with rfl | later
        · exact ⟨ver,decoded⟩
        · exact ih done q later of
    · rw [if_neg here] at done
      rcases mem_cons.mp mem with rfl | later
      · exact absurd of here
      · exact ih done q later of

theorem considerTwice (done : considerRecords view userKey none records = .ok best) :
    considerRecords view userKey best records = .ok best := by
  have decode := decodesConsidered done
  rw [considerRecordsDecode decode] at done ⊢
  have once : bestOf (visible view) commitTs (versionsIn userKey records) = best := Except.ok.inj done
  rw [bestFromBetter,once]
  cases best with
  | none => rfl
  | some => rw [betterLe (le_refl _)]

theorem memRangeSelf {table : MemTable} {value : Bytes} {found : List Record}
    (ranged : table.range userKey (userKeyPrefixEnd userKey) = .ok found)
    (held : table.map.find userKey = some value) : (userKey,value) ∈ found := by
  have mem := memIff.mpr held
  unfold MemTable.range at ranged
  split at ranged
  · cases ranged
  rename_i ordered
  cases ranged
  have inside := concernsWindow (table.named _ mem) ordered (.inr rfl : Concerns userKey (userKey,value))
  exact mem_filter.mpr ⟨mem,by simpa using inside⟩

theorem considerFilesDecode (decode : ∀ f ∈ files, Decodes userKey (windowOf userKey f))
    (best : Option Version) : considerFiles view userKey best (files.map some) =
      .ok (bestFrom (visible view) commitTs best (versionsOf userKey files)) := by
  induction files generalizing best with
  | nil => rfl
  | cons f _ ih =>
    have later := ih fun f mem => decode f (mem_cons_of_mem _ mem)
    have first : considerRecords view userKey best _ = _ := considerRecordsDecode (decode f mem_cons_self) best
    rw [windowOf] at first
    simp only [map_cons,considerFiles,first,later,versionsOf,flatMap_cons,bestFromAppend]
    rfl

theorem considerFilesAppend (best first second) :
    considerFiles view userKey best (first ++ second) = match considerFiles view userKey best first with
      | .error fault => .error fault
      | .ok mid => considerFiles view userKey mid second := by
  induction first generalizing best with
  | nil => rfl
  | cons reader _ ih =>
    cases reader with
    | none => exact ih best
    | some sst =>
      simp only [cons_append,considerFiles]
      cases considerRecords view userKey best (sst.scanRange userKey (userKeyPrefixEnd userKey)) with
      | error => rfl
      | ok next => exact ih next

theorem undecodedFails {tree : LsmTree} {value : Bytes} {fault : Fault}
    (held : tree.active.map.find userKey = some value) (undecoded : decodeOrLegacy value = .error fault) :
    ∃ fault, tree.findVisibleVersion userKey view = .error fault := by
  unfold findVisibleVersion
  cases ranged : tree.active.range userKey (userKeyPrefixEnd userKey) with
  | error fault => exact ⟨fault,rfl⟩
  | ok found =>
    simp only
    cases considered : considerRecords view userKey none found with
    | error fault => exact ⟨fault,rfl⟩
    | ok =>
      obtain ⟨_,decoded⟩ := decodesConsidered considered _ (memRangeSelf ranged held) (.inr rfl)
      rw [undecoded] at decoded
      cases decoded

theorem firstCopySome (key) (files : List Sst) (rest) :
    firstCopy key (files.map some ++ rest) = match files.findSome? (·.get key) with
      | some value => .ok (some value)
      | none => firstCopy key rest := by
  induction files with
  | nil => rfl
  | cons f _ ih =>
    simp only [map_cons,cons_append,firstCopy,List.findSome?_cons]
    cases f.get key with
    | none => exact ih
    | some => rfl

end

section
variable {view : ReadView} {bounds : Option (Bytes × Bytes)}

def Covered (bounds : Option (Bytes × Bytes)) (key : Bytes) : Prop :=
  match bounds with
  | none => True
  | some (start,stop) => ∃ w ∈ scanWindows start stop, w.1 ≤ key ∧ key < w.2

theorem memFileRecords : r ∈ fileRecords bounds sst ↔ sst.get r.1 = some r.2 ∧ Covered bounds r.1 := by
  cases bounds with
  | none =>
    simp only [fileRecords,Covered,and_true]
    exact memIff
  | some =>
    simp only [fileRecords,Covered,mem_flatMap,Sst.scanRange,mem_filter,decide_eq_true_eq]
    constructor
    · rintro ⟨w,window,mem,inside⟩
      exact ⟨memIff.mp mem,w,window,inside⟩
    · rintro ⟨held,w,window,inside⟩
      exact ⟨w,window,memIff.mpr held,inside⟩

theorem memWindowRecords (done : windowRecords table windows = .ok records) {r : Record} :
    r ∈ records ↔ table.map.find r.1 = some r.2 ∧ ∃ w ∈ windows, w.1 ≤ r.1 ∧ r.1 < w.2 := by
  induction windows generalizing records with
  | nil =>
    cases done
    simp
  | cons _ _ ih =>
    simp only [windowRecords,MemTable.range] at done
    split at done
    · cases done
    rename_i first ranged
    split at ranged
    · cases ranged
    cases ranged
    split at done
    · cases done
    rename_i more later
    cases done
    simp only [mem_append,mem_filter,decide_eq_true_eq,ih later,exists_mem_cons_iff]
    constructor
    · rintro (⟨mem,inside⟩ | ⟨held,inside⟩)
      · exact ⟨memIff.mp mem,.inl inside⟩
      · exact ⟨held,.inr inside⟩
    · rintro ⟨held,inside | inside⟩
      · exact .inl ⟨memIff.mpr held,inside⟩
      · exact .inr ⟨held,inside⟩

theorem memActiveRecords (done : activeRecords bounds table = .ok records) {r : Record} :
    r ∈ records ↔ table.map.find r.1 = some r.2 ∧ Covered bounds r.1 := by
  cases bounds with
  | none =>
    cases done
    simp only [Covered,and_true]
    exact memIff
  | some => exact memWindowRecords done

theorem memStored {tree : LsmTree} {r : Record} : r ∈ tree.storedRecords bounds ↔
    ∃ sst, some sst ∈ tree.readers1 ++ tree.readers0 ∧ sst.get r.1 = some r.2 ∧ Covered bounds r.1 := by
  simp only [storedRecords,mem_flatMap]
  constructor
  · rintro ⟨reader,there,mem⟩
    cases reader with
    | none => cases mem
    | some sst => exact ⟨sst,there,memFileRecords.mp mem⟩
  · rintro ⟨sst,there,held⟩
    exact ⟨some sst,there,memFileRecords.mpr held⟩

theorem latestBounds : ¬ReadView.latest.snapshotTs < ts := by
  have top := ts.toNat_lt
  rw [UInt64.lt_iff_toNat_lt]
  simp only [ReadView.latest,UInt64.reduceToNat]
  omega

def readAs (r : Record) : Option (Bytes × CommitTs × Bool × Bytes) :=
  if Marked r.2 ∧ 8 < r.1.length then (decodeVersionRef r.2).map fun parts => (decodeUserKey r.1,parts)
  else some (r.1,1,false,r.2)

theorem partsIff {ω : Type} {wrap : Bytes → ω} {user : Bytes} (parts)
    {key : Bytes} {stamp : CommitTs} {deleted : Bool} {payload : ω} :
    (match parts with
      | none => none
      | some (ts,gone,value) =>
          if outside bounds user then none
          else if ts = 0 ∨ view.snapshotTs < ts then none
          else some (Candidate.mk user ts (gone,wrap value))) =
        some (Candidate.mk key stamp (deleted,payload)) ↔
      ∃ value, parts.map (fun p => (user,p)) = some (key,stamp,deleted,value) ∧ payload = wrap value ∧
        outside bounds key = false ∧ stamp ≠ 0 ∧ stamp ≤ view.snapshotTs := by
  cases parts with
  | none => simp
  | some parts =>
    obtain ⟨ts,_,value⟩ := parts
    by_cases out : outside bounds user = true
    · simp only [out,if_true,map_some,some.injEq,Prod.mk.injEq,reduceCtorEq,false_iff]
      rintro ⟨_,⟨rfl,-⟩,-,inside,-⟩
      simp [out] at inside
    · by_cases hidden : ts = 0 ∨ view.snapshotTs < ts
      · simp only [out,hidden,if_true,if_false,map_some,some.injEq,Prod.mk.injEq,
          reduceCtorEq,false_iff,Bool.false_eq_true]
        rintro ⟨_,⟨-,rfl,-⟩,-,-,positive,seen⟩
        rcases hidden with zero | above
        · exact positive zero
        · exact absurd seen (not_le.mpr above)
      · simp only [out,hidden,map_some,some.injEq,Prod.mk.injEq,Candidate.mk.injEq,if_false, Bool.false_eq_true]
        push Not at hidden
        constructor
        · rintro ⟨rfl,rfl,rfl,rfl⟩
          exact ⟨value,⟨rfl,rfl,rfl,rfl⟩,rfl,by simpa using out,hidden⟩
        · rintro ⟨_,⟨rfl,rfl,rfl,rfl⟩,rfl,-⟩
          exact ⟨rfl,rfl,rfl,rfl⟩

theorem ingestIff {ω : Type} {wrap : Bytes → ω} {r : Record} {c : Candidate Bytes CommitTs (Bool × ω)} :
    ingest view bounds wrap r = some c ↔ ∃ value, readAs r = some (c.key,c.stamp,c.payload.1,value) ∧
      c.payload.2 = wrap value ∧ outside bounds c.key = false ∧ c.stamp ≠ 0 ∧ c.stamp ≤ view.snapshotTs := by
  by_cases mvcc : Marked r.2 ∧ 8 < r.1.length
  · simp only [ingest,readAs,mvcc,and_self,decide_true,if_true]
    exact partsIff _
  · simp only [ingest,readAs,mvcc,decide_false,if_false,Bool.false_eq_true]
    exact partsIff (some (1,false,r.2))

theorem ingestLatest {ω : Type} {wrap : Bytes → ω} {r : Record} {c : Candidate Bytes CommitTs (Bool × ω)}
    (taken : ingest view bounds wrap r = some c) : ingest .latest none wrap r = some c := by
  obtain ⟨value,read,payload,-,positive,-⟩ := ingestIff.mp taken
  exact ingestIff.mpr ⟨value,read,payload,rfl,positive,not_lt.mp latestBounds⟩

theorem readAsConcerns (read : readAs r = some (user,rest)) : Concerns user r := by
  unfold readAs at read
  split at read
  · obtain ⟨_,-,same⟩ := map_eq_some_iff.mp read
    exact .inl (congrArg Prod.fst same)
  · exact .inr (congrArg Prod.fst (some.inj read))

theorem concernsLe (of : Concerns user r) : user ≤ r.1 := by
  rcases of with decoded | same
  · have below := leAppend (decodeUserKey r.1) (r.1.drop (r.1.length-8))
    rw [← decodedPrefix] at below
    exact decoded ▸ below
  · exact le_of_eq same.symm

theorem coveredOpen : Covered (some (start,[])) key ↔ start ≤ key ∧ key < List.replicate 64 255 := by
  simp [Covered,scanWindows]

theorem coveredBounded (bounded : stop ≠ []) : Covered (some (start,stop)) key ↔
    (start ≤ key ∧ key < stop) ∨ ∃ plen, 0 < plen ∧ plen < stop.length ∧ start ≤ stop.take plen ∧
      stop.take plen < stop ∧ stop.take plen ≤ key ∧ key < stop.take plen ++ List.replicate 9 255 := by
  simp only [Covered,scanWindows,if_neg bounded,exists_mem_cons_iff,mem_filterMap, ite_none_right_eq_some,some.injEq]
  refine or_congr_right ?_
  constructor
  · rintro ⟨w,⟨plen,mem,⟨low,high⟩,rfl⟩,above,below⟩
    refine ⟨plen,?_,?_,low,high,above,below⟩
    · rw [range_eq_range',drop_range'] at mem
      have bound := (mem_range'_1.mp mem).1
      omega
    · exact mem_range.mp (mem_of_mem_drop mem)
  · rintro ⟨plen,_,_,low,high,above,below⟩
    refine ⟨_,⟨plen,?_,⟨low,high⟩,rfl⟩,above,below⟩
    rw [range_eq_range',drop_range']
    exact mem_range'_1.mpr ⟨by omega,by omega⟩

theorem insideIff : outside (some (start,stop)) user = false ↔ start ≤ user ∧ (stop ≠ [] → user < stop) := by
  simp [outside]

theorem coveredBelow (covered : Covered bounds key) (inside : outside bounds low = false)
    {other : Bytes} (above : low ≤ other) (below : other ≤ key) : Covered bounds other := by
  cases bounds with
  | none => trivial
  | some range =>
    obtain ⟨start,stop⟩ := range
    have from' : start ≤ other := le_trans (insideIff.mp inside).1 above
    by_cases bounded : stop = []
    · subst bounded
      rw [coveredOpen] at covered ⊢
      exact ⟨from',lt_of_le_of_lt below covered.2⟩
    · rw [coveredBounded bounded] at covered ⊢
      rcases covered with ⟨-,high⟩ | ⟨plen,positive,short,low',less,-,high⟩
      · exact .inl ⟨from',lt_of_le_of_lt below high⟩
      · rcases le_or_gt (stop.take plen) other with reached | early
        · exact .inr ⟨plen,positive,short,low',less,reached,lt_of_le_of_lt below high⟩
        · exact .inl ⟨from',lt_trans early less⟩

def scanned (tree : LsmTree) : List Record := tree.storedRecords none ++ tree.active.iter

theorem memPoint {tree : LsmTree} {key : Bytes} {r : Record} : r ∈ pointRecords tree key ↔
    r ∈ scanned tree ∧ key ≤ r.1 ∧ r.1 < userKeyPrefixEnd key := by
  have files : ∀ sst, sst ∈ (tree.readers0.reverse ++ tree.readers1.reverse).reduceOption ↔
      some sst ∈ tree.readers1 ++ tree.readers0 := by
    intro sst
    rw [reduceOption_mem_iff]
    simp [or_comm]
  have stored : r ∈ tree.storedRecords none ↔ ∃ sst, some sst ∈ tree.readers1 ++ tree.readers0 ∧
      sst.get r.1 = some r.2 := by
    simp [memStored,Covered,and_true]
  simp only [pointRecords,scanned,mem_append,mem_filter,mem_flatMap,decide_eq_true_eq,files,memWindow, stored]
  constructor
  · rintro (⟨active,inside⟩ | ⟨sst,there,held,inside⟩)
    · exact ⟨.inr active,inside⟩
    · exact ⟨.inl ⟨sst,by simpa using there,held⟩,inside⟩
  · rintro ⟨⟨sst,there,held⟩ | active,inside⟩
    · exact .inr ⟨sst,by simpa using there,held,inside⟩
    · exact .inl ⟨active,inside⟩

theorem memLive {ω : Type} {merged key value} :
    (key,value) ∈ live merged ↔ ∃ ts, (⟨key,ts,false,value⟩ : Candidate Bytes CommitTs (Bool × ω)) ∈ merged := by
  simp only [live,mem_filterMap]
  constructor
  · rintro ⟨⟨k,ts,deleted,_⟩,mem,shape⟩
    cases deleted with
    | true => simp at shape
    | false =>
      obtain ⟨rfl,rfl⟩ := shape
      exact ⟨ts,mem⟩
  · rintro ⟨_,mem⟩
    exact ⟨_,mem,by simp⟩

theorem liveAscending {ω : Type} {merged : List (Candidate Bytes CommitTs (Bool × ω))}
    (ascending : merged.Pairwise fun a b => a.key < b.key) : ((live merged).map Prod.fst).Pairwise (· < ·) := by
  rw [pairwise_map]
  refine ascending.filterMap _ fun a b less c first d second => ?_
  obtain ⟨-,rfl⟩ := ite_none_left_eq_some.mp first |>.imp_right some.inj
  obtain ⟨-,rfl⟩ := ite_none_left_eq_some.mp second |>.imp_right some.inj
  exact less

def Unambiguous (tree : LsmTree) : Prop :=
  Untied ((scanned tree).filterMap (ingest .latest none id))

instance (tree) : Decidable (Unambiguous tree) := by unfold Unambiguous Untied; infer_instance

theorem candidatesUntied {tree : LsmTree} {records : List Record} (clear : Unambiguous tree)
    (done : activeRecords bounds tree.active = .ok records) :
    Untied ((tree.storedRecords bounds ++ records).filterMap (ingest view bounds id)) := by
  refine (fun subset a left b right => clear a (subset a left) b (subset b right) : (∀ c ∈ _,c ∈ _) → _) fun c mem => ?_
  obtain ⟨r,inside,taken⟩ := mem_filterMap.mp mem
  refine mem_filterMap.mpr ⟨r,?_,ingestLatest taken⟩
  rcases mem_append.mp inside with stored | active
  · obtain ⟨sst,there,held,-⟩ := memStored.mp stored
    exact mem_append_left _ (memStored.mpr ⟨sst,there,held,trivial⟩)
  · exact mem_append_right _ (memIff.mpr ((memActiveRecords done).mp active).1)

theorem scanCongr (clear : Unambiguous tree) (active : other.active = tree.active)
    (stored : ∀ r, r ∈ other.storedRecords bounds ↔ r ∈ tree.storedRecords bounds) :
    mergeVisibleAt sorter other view bounds = mergeVisibleAt sorter tree view bounds := by
  simp only [mergeVisibleAt,mergeVisibleFold,active]
  cases done : activeRecords bounds tree.active with
  | error => rfl
  | ok records =>
    have same : newestOf sorter ((tree.storedRecords bounds ++ records).filterMap (ingest view bounds id)) =
        newestOf sorter ((other.storedRecords bounds ++ records).filterMap (ingest view bounds id)) := by
      refine newestCongr (candidatesUntied clear done) fun c => ?_
      simp only [mem_filterMap,mem_append,stored]
    simp only [same]

end
end NoeDB.LsmReads
