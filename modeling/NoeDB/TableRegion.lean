import NoeDB.LsmRecovery
import NoeDB.Text
import NoeDB.TxnStorage

/-! The part of the tree that holds the rows of tables. Beside it stand the index entries,
markers and statistics, which are written raw and as versions under a first byte of their
own; here nothing but versions is written, and both read paths show the newest one. -/
namespace NoeDB.TableRegion
open ByteString Text OrderedTable StorageTypes StorageTables NewestPerKey Fallible LatestItem List Table
open Lsm LsmTree LsmLevels LsmReads LsmCalls LsmRecords LsmAgreement LsmVersions
open MvccTable Transactions

/- The key belongs to an index, a marker or the statistics. -/
def Reserved (key : Bytes) : Prop := key.head? = some 2 ∨ key.head? = some 3

instance (key) : Decidable (Reserved key) := inferInstanceAs (Decidable (_ ∨ _))

structure TableKey (key : Bytes) : Prop where
  named : key ≠ []
  text : ∃ text, key = utf8 text
  outer : ¬Reserved key

/- A timestamp that leaves 0xFF as the first byte behind the user key. -/
def Early (ts : CommitTs) : Prop := ts.toNat < 2^56

instance (ts) : Decidable (Early ts) := inferInstanceAs (Decidable (_ < _))

structure Region (tree : LsmTree) : Prop where
  levels : ∃ l0 l1, Levels tree l0 l1
  shape : ∀ r ∈ scanned tree, ¬Reserved r.1 → ∃ key version, r = recordOf key version ∧ TableKey key ∧
    version.commitTs ≠ 0 ∧ Early version.commitTs ∧ version.value.length < 2^32
  single : ∀ key v w, TableKey key → Held tree key v → Held tree key w → v.commitTs = w.commitTs → v = w

section
variable {key : Bytes}

theorem TableKey.low (own : TableKey key) (mem : b ∈ key) : b < 248 := by
  obtain ⟨text,rfl⟩ := own.text
  exact UInt8.lt_iff_toNat_lt.mpr (utf8Below mem)

theorem TableKey.searchable (own : TableKey key) : ¬userKeyPrefixEnd key < key := by
  obtain ⟨b,mem⟩ := exists_mem_of_ne_nil key own.named
  refine (searchableIff own.named).mpr fun none => ?_
  exact absurd (followingNone.mp none b mem ▸ own.low mem) (by decide)

theorem reservedAppend (named : key ≠ []) (more) : Reserved (key ++ more) ↔ Reserved key := by
  cases key with
  | nil => exact absurd rfl named
  | cons => simp [Reserved]

theorem earlyStamp (early : Early ts) : 255 ∈ encodeInternalKey key ts := by
  have flipped : (~~~ts).toNat = 2^64-1-ts.toNat := UInt64.toNat_not ts
  unfold Early at early
  have top : UInt8.ofNat ((~~~ts).toNat/256/256/256/256/256/256/256) = 255 := by
    rw [← UInt8.toNat_inj,UInt8.toNat_ofNat']
    simp only [UInt8.reduceToNat]
    omega
  refine mem_append_right _ ?_
  simp only [beBytes,leBytes,mem_reverse,mem_cons,top]
  simp

theorem earlyFree (own : TableKey key) (early : Early ts) : encodeInternalKey other ts ≠ key := by
  intro same
  have high : (255 : UInt8) < 248 := own.low (same ▸ earlyStamp early)
  exact absurd high (by decide)

theorem concernsOuter (own : TableKey key) (of : Concerns key r) : ¬Reserved r.1 := by
  obtain ⟨_,shape,-⟩ := concernsSuffix of
  rw [shape,reservedAppend own.named]
  exact own.outer

theorem recordReserved (named : key ≠ []) : Reserved (recordOf key version).1 ↔ Reserved key := reservedAppend named _

end

section
variable {tree : LsmTree} {key : Bytes} {view : ReadView}

theorem regionOwn (region : Region tree) (own : TableKey key) : OwnVersions tree key where
  named := own.named
  searchable := own.searchable
  shape r mem of := by
    obtain ⟨other,version,rfl,-,-,early,-⟩ := region.shape r mem (concernsOuter own of)
    rcases of with decoded | same
    · have keys : other = key := by simpa [recordOf] using decoded
      exact ⟨version,keys ▸ rfl⟩
    · exact absurd same (earlyFree own early)
  committed version held := by
    have outer : ¬Reserved (recordOf key version).1 := (recordReserved own.named).not.mpr own.outer
    obtain ⟨_,w,same,-,positive,-,fits⟩ := region.shape _ held outer
    obtain ⟨-,rfl⟩ := recordInjective same
    exact ⟨positive,fits⟩
  single v w := region.single key v w own

theorem regionFree (region : Region tree) (own : TableKey key) (mem : r ∈ scanned tree) : r.1 ≠ key := by
  intro same
  obtain ⟨_,rfl⟩ := (regionOwn region own).shape r mem (.inr same)
  have long := congrArg List.length same
  rw [recordOf,internalKeyLength] at long
  omega

theorem regionGet (region : Region tree) (own : TableKey key) : tree.get key = tree.getVisible key .latest := by
  have absent : tree.active.get key = .ok none := by
    unfold MemTable.get
    rw [show MemTable.validateKey key = .ok () from if_neg own.named]
    cases found : tree.active.map.find key with
    | none => rfl
    | some =>
      exact absurd rfl (regionFree region own (mem_append_right _ (memIff.mpr found)))
  simp only [LsmTree.get,absent,getStored,getVisible]
  cases read : tree.findVisibleVersion key .latest with
  | error => rfl
  | ok found =>
    cases found with
    | none => exact copyAbsent region.levels fun r => regionFree region own
    | some => rfl

theorem latestStamp (version : Version) : version.commitTs ≤ ReadView.latest.snapshotTs := by
  have bound := version.commitTs.toNat_lt
  rw [UInt64.le_iff_toNat_le]
  simp only [ReadView.latest,UInt64.reduceToNat]
  omega

theorem regionReads (region : Region tree) (own : TableKey key) :
    ∃ value, tree.getVisible key .latest = .ok value ∧ Reading (Held tree key) value := by
  obtain ⟨value,read,reading⟩ := @ownReading _ _ .latest (regionOwn region own)
  exact ⟨value,read,(readingCongr fun v => and_iff_left (latestStamp v)).mp reading⟩

theorem windowPrefix {b : UInt8} (room : b ≠ 255) (above : front ++ [b] ≤ bytes)
    (below : bytes < front ++ [b+1]) : front ++ [b] <+: bytes := by
  induction front generalizing bytes with
  | nil =>
    cases bytes with
    | nil => exact absurd (nil_lt_cons b []) (not_lt.mpr above)
    | cons c =>
      have same : c = b := by
        rcases cons_lt_cons_iff.mp below with less | ⟨rfl,none⟩
        · have most : ¬c < b := fun less' => absurd (cons_lt_cons_iff.mpr (.inl less')) (not_lt.mpr above)
          rw [UInt8.lt_iff_toNat_lt] at less most
          have step : (b+1).toNat = b.toNat+1 := by
            have bound := b.toNat_lt
            have small : b.toNat ≠ 255 := fun same => room (UInt8.toNat_inj.mp same)
            rw [UInt8.toNat_add]
            simp only [UInt8.reduceToNat]
            omega
          exact UInt8.toNat_inj.mp (by omega)
        · exact absurd none (not_lt_nil _)
      simp [same]
  | cons a _ ih =>
    cases bytes with
    | nil => exact absurd (nil_lt_cons a _) (not_lt.mpr above)
    | cons =>
      rcases cons_lt_cons_iff.mp below with less | ⟨rfl,later⟩
      · exact absurd (cons_lt_cons_iff.mpr (.inl less)) (not_lt.mpr above)
      · refine List.cons_prefix_cons.mpr ⟨rfl,ih (not_lt.mp fun less => ?_) later⟩
        exact absurd (cons_lt_cons_iff.mpr (.inr ⟨rfl,less⟩)) (not_lt.mpr above)

theorem followingSeparator (front) : following (front ++ [0]) = front ++ [1] := by
  simp [following,incremented]

theorem insideWindow : outside (some (front ++ [0],following (front ++ [0]))) key = false ↔ front ++ [0] <+: key := by
  rw [followingSeparator,insideIff]
  constructor
  · rintro ⟨above,below⟩
    exact windowPrefix (by decide) above (below (by simp))
  · rintro ⟨more,rfl⟩
    refine ⟨leAppend _ _,fun _ => ?_⟩
    have above := @followingAbove (front ++ [0]) (by simp [followingSeparator]) more
    rwa [followingSeparator] at above

theorem regionRange (region : Region tree) {front} (outer : TableKey (front ++ [0])) (sorter : Sorter) :
    ∃ pairs, tree.rangeVisible sorter (front ++ [0]) (following (front ++ [0])) view = .ok pairs ∧ Ascending pairs ∧
      ∀ k value, (k,value) ∈ pairs ↔ front ++ [0] <+: k ∧ TableKey k ∧ tree.getVisible k view = .ok (some value) := by
  have bounded : following (front ++ [0]) ≠ [] := by simp [followingSeparator]
  have low : ∀ k : Bytes, following (front ++ [0]) = [] → k < List.replicate 64 255 := fun _ none => absurd none bounded
  have start : outside (some (front ++ [0],following (front ++ [0]))) (front ++ [0]) = false :=
    insideWindow.mpr List.prefix_rfl
  obtain ⟨_,done,scan⟩ := @rangeScan tree _ _ _ view sorter start (low _)
  refine ⟨_,scan,pairwise_map.mp (liveAscending (newestAscending _ _)),fun k value => ?_⟩
  constructor
  · intro mem
    obtain ⟨_,kept⟩ := memLive.mp mem
    obtain ⟨r,inside,taken⟩ := mem_filterMap.mp (newestKept kept).1
    obtain ⟨_,read,-,within,-⟩ := ingestIff.mp taken
    have begins := insideWindow.mp within
    have of := readAsConcerns read
    have stored := ((memCovered done).mp inside).1
    have unreserved : ¬Reserved r.1 := by
      obtain ⟨_,shape,-⟩ := concernsSuffix of
      obtain ⟨_,rfl⟩ := begins
      rw [shape,append_assoc,reservedAppend outer.named]
      exact outer.outer
    obtain ⟨other,_,rfl,own,-,_,fits⟩ := region.shape r stored unreserved
    rw [recordRead own.named fits] at read
    have keys : other = k := congrArg Prod.fst (Option.some.inj read)
    subst keys
    exact ⟨begins,own,(scanShows own.named (ownAlike (regionOwn region own))
      (reachesWithin own.named own.searchable within (low _)) done value).mpr mem⟩
  · rintro ⟨begins,own,read⟩
    have within := insideWindow.mpr begins
    exact (scanShows own.named (ownAlike (regionOwn region own))
      (reachesWithin own.named own.searchable within (low _)) done value).mp read

end

structure Shows (tree : LsmTree) (map : Table Bytes Bytes) : Prop where
  keys : ∀ e ∈ map.entries, TableKey e.1
  reads : ∀ key, TableKey key → Reading (Held tree key) (map.find key)

section
variable {tree next : LsmTree} {map : Table Bytes Bytes} {key : Bytes}

theorem showsVisible (region : Region tree) (shows' : Shows tree map) (own : TableKey key) :
    tree.getVisible key .latest = .ok (map.find key) := by
  obtain ⟨_,read,reading⟩ := regionReads region own
  rw [read,readingUnique (fun v w => region.single key v w own) reading (shows'.reads key own)]

theorem showsGet (region : Region tree) (shows' : Shows tree map) (own : TableKey key) :
    tree.get key = .ok (map.find key) :=
  (regionGet region own).trans (showsVisible region shows' own)

theorem showsRange (region : Region tree) (shows' : Shows tree map) (outer : TableKey (front ++ [0]))
    (sorter : Sorter) : tree.rangeVisible sorter (front ++ [0]) (following (front ++ [0])) .latest =
      .ok (map.entries.filter fun e => (front ++ [0]).isPrefixOf e.1) := by
  obtain ⟨_,scan,asc,mem⟩ := @regionRange tree .latest region front outer sorter
  rw [scan,entriesExt asc (map.ascending.filter _) fun e => ?_]
  rw [mem,mem_filter,memIff,List.isPrefixOf_iff_prefix]
  constructor
  · rintro ⟨begins,own,read⟩
    rw [showsVisible region shows' own] at read
    exact ⟨Except.ok.inj read,begins⟩
  · rintro ⟨found,begins⟩
    have own := shows'.keys _ (memIff.mpr found)
    exact ⟨begins,own,by rw [showsVisible region shows' own,found]⟩

theorem tableKeys (records : List Record) : ∃ keys : List Bytes, (∀ key ∈ keys, TableKey key) ∧
    ∀ key version, TableKey key → recordOf key version ∈ records → key ∈ keys := by
  induction records with
  | nil =>
    refine ⟨[],?_,?_⟩
    · intro key mem
      cases mem
    · intro key version own mem
      cases mem
  | cons r _ ih =>
    obtain ⟨keys,own,listed⟩ := ih
    by_cases versioned : ∃ key version, TableKey key ∧ r = recordOf key version
    · obtain ⟨first,_,own',rfl⟩ := versioned
      refine ⟨first :: keys,forall_mem_cons.mpr ⟨own',own⟩,fun key version keyed mem => ?_⟩
      rcases mem_cons.mp mem with same | later
      · exact (recordInjective same).1 ▸ mem_cons_self
      · exact mem_cons_of_mem _ (listed key version keyed later)
    · refine ⟨keys,own,fun key version keyed mem => ?_⟩
      rcases mem_cons.mp mem with same | later
      · exact absurd ⟨key,version,keyed,same.symm⟩ versioned
      · exact listed key version keyed later

theorem regionShows (region : Region tree) : ∃ map, Shows tree map := by
  obtain ⟨keys,own,listed⟩ := tableKeys (scanned tree)
  obtain ⟨map,inside,outside⟩ := tabulated keys fun key => (tree.getVisible key .latest).toOption.join
  refine ⟨map,fun e mem => ?_,fun key keyed => ?_⟩
  · by_cases known : e.1 ∈ keys
    · exact own e.1 known
    · cases (memIff.mp mem).symm.trans (outside e.1 known)
  · obtain ⟨_,read,reading⟩ := regionReads region keyed
    by_cases known : key ∈ keys
    · rw [inside key known,read]
      exact reading
    · rw [outside key known]
      refine ⟨none,?_,rfl⟩
      exact fun version held => known (listed key version keyed held)

structure SameRows (tree next : LsmTree) : Prop where
  levels : ∃ l0 l1, Levels next l0 l1
  records : ∀ r : Record, ¬Reserved r.1 → (r ∈ scanned next ↔ r ∈ scanned tree)

theorem SameRows.trans (first : SameRows tree next) (second : SameRows next last) : SameRows tree last :=
  ⟨second.levels,fun r outer => (second.records r outer).trans (first.records r outer)⟩

theorem SameRows.held (same : SameRows tree next) (own : TableKey key) :
    Held next key version ↔ Held tree key version :=
  same.records _ ((recordReserved own.named).not.mpr own.outer)

theorem sameRegion (region : Region tree) (same : SameRows tree next) : Region next where
  levels := same.levels
  shape r mem outer := region.shape r ((same.records r outer).mp mem) outer
  single key v w own left right := region.single key v w own ((same.held own).mp left) ((same.held own).mp right)

theorem sameShows (shows' : Shows tree map) (same : SameRows tree next) : Shows next map where
  keys := shows'.keys
  reads key own := (readingCongr fun _ => same.held own).mpr (shows'.reads key own)

theorem regionAgrees (region : Region tree) : AgreesIn (fun key => ¬Reserved key) tree := by
  intro r left q right outer same
  obtain ⟨key,v,rfl,own,-⟩ := region.shape r left outer
  obtain ⟨_,w,rfl,-⟩ := region.shape q right (same ▸ outer)
  obtain ⟨rfl,stamps⟩ := internalKeyInjective same
  rw [region.single key v w own left right stamps]

theorem settlesSame (region : Region tree) (settles : Settles tree next) : SameRows tree next := by
  have keeps := settlesKeeps region.levels (regionAgrees region) settles
  exact ⟨keeps.levels,keeps.records⟩

theorem wroteLevelsKept (present : ∃ l0 l1, Levels tree l0 l1) (wrote : Wrote tree entry next) :
    ∃ l0 l1, Levels next l0 l1 := by
  obtain ⟨l0,l1,levels⟩ := present
  obtain ⟨same0,same1⟩ := wroteLevels wrote
  exact ⟨l0,l1,same0 ▸ levels.level0,same1 ▸ levels.level1⟩

theorem wroteReserved (present : ∃ l0 l1, Levels tree l0 l1) (reserved : Reserved entry.key)
    (shape : entry = .put entry.key entry.value ∨ entry = .delete entry.key) (wrote : Wrote tree entry next) :
    SameRows tree next := by
  refine ⟨wroteLevelsKept present wrote,fun r outer => ?_⟩
  have other : r.1 ≠ entry.key := fun same => outer (same ▸ reserved)
  rcases shape with put | delete
  · rw [put] at wrote
    rw [memPut wrote,scanned,mem_append]
    constructor
    · rintro (file | new | ⟨old,-⟩)
      · exact .inl file
      · exact absurd (congrArg Prod.fst new) other
      · exact .inr old
    · rintro (file | old)
      · exact .inl file
      · exact .inr (.inr ⟨old,other⟩)
  · rw [delete] at wrote
    rw [memDelete wrote,scanned,mem_append]
    exact or_congr_right ⟨And.left,fun old => ⟨old,other⟩⟩

def Above (tree : LsmTree) (key : Bytes) (ts : CommitTs) : Prop := ∀ version, Held tree key version → version.commitTs < ts

theorem putVersionWrote {version} (present : ∃ l0 l1, Levels tree l0 l1) (committed : version.commitTs ≠ 0) :
    ∃ mid next, Wrote tree (.put (recordOf key version).1 (recordOf key version).2) mid ∧ Settles mid next ∧
      execute (putVersion key version) tree = (.ok (),next) := by
  obtain ⟨u,mid,written⟩ := versionWriteSucceeds tree key committed
  have wrote := (versionWriteReturns written).2
  obtain ⟨next,settles⟩ := settlesExists (.inl (putActive wrote.applied).1) (wroteLevelsKept present wrote)
  exact ⟨mid,next,wrote,settles,putVersionReturns.mpr ⟨mid,written,settles⟩⟩

theorem putVersionReserved (region : Region tree) (named : key ≠ []) (reserved : Reserved key)
    (committed : version.commitTs ≠ 0) :
    ∃ next, execute (putVersion key version) tree = (.ok (),next) ∧ SameRows tree next := by
  obtain ⟨_,next,wrote,settles,done⟩ := @putVersionWrote tree key version region.levels committed
  have same := wroteReserved region.levels ((recordReserved named).mpr reserved) (.inl rfl) wrote
  exact ⟨next,done,same.trans (settlesSame (sameRegion region same) settles)⟩

theorem wroteVersionShows (region : Region tree) (own : TableKey key)
    (committed : version.commitTs ≠ 0) (early : Early version.commitTs) (fits : version.value.length < 2^32)
    (above : Above tree key version.commitTs)
    (wrote : Wrote tree (.put (recordOf key version).1 (recordOf key version).2) next) : Region next ∧
      ∀ r : Record, ¬Reserved r.1 → (r ∈ scanned next ↔ r = recordOf key version ∨ r ∈ scanned tree) := by
  have fresh : ∀ v, Held tree key v → v.commitTs ≠ version.commitTs := fun v held => ne_of_lt (above v held)
  have records : ∀ r : Record, ¬Reserved r.1 → (r ∈ scanned next ↔ r = recordOf key version ∨ r ∈ scanned tree) :=
    fun r outer => wroteRecords fresh wrote fun old => (region.shape r old outer).imp fun _ => .imp fun _ => And.left
  refine ⟨⟨wroteLevelsKept region.levels wrote,fun r mem outer => ?_,fun k v w keyed => ?_⟩,records⟩
  · rcases (records r outer).mp mem with rfl | old
    · exact ⟨key,version,rfl,own,committed,early,fits⟩
    · exact region.shape r old outer
  · refine wroteSingle fresh (fun u => (records _ ?_).mp) fun v w => region.single k v w keyed
    exact (recordReserved keyed.named).not.mpr keyed.outer

theorem putVersionShows (region : Region tree) (own : TableKey key)
    (committed : version.commitTs ≠ 0) (early : Early version.commitTs) (fits : version.value.length < 2^32)
    (above : Above tree key version.commitTs) :
    ∃ next, execute (putVersion key version) tree = (.ok (),next) ∧ Region next ∧
      ∀ r : Record, ¬Reserved r.1 → (r ∈ scanned next ↔ r = recordOf key version ∨ r ∈ scanned tree) := by
  obtain ⟨_,next,wrote,settles,done⟩ := @putVersionWrote tree key version region.levels committed
  obtain ⟨middle,records⟩ := wroteVersionShows region own committed early fits above wrote
  have same := settlesSame middle settles
  exact ⟨next,done,sameRegion middle same,fun r outer => (same.records r outer).trans (records r outer)⟩

def written (map : Table Bytes Bytes) (key : Bytes) : WriteOp → Table Bytes Bytes
  | .put value => map.insert key value
  | .delete => map.erase key

theorem findWritten (map key other op) :
    (written map key op).find other = if key = other then op.value else map.find other := by
  cases op <;> simp [written,WriteOp.value]

theorem memWritten (mem : e ∈ (written map key op).entries) : e.1 = key ∨ e ∈ map.entries := by
  have found := memIff.mp mem
  rw [findWritten] at found
  split at found
  · rename_i same
    exact .inl same.symm
  · exact .inr (memIff.mpr found)

theorem addedShows (shows' : Shows tree map) (own : TableKey key) (above : Above tree key ts)
    (records : ∀ r : Record, ¬Reserved r.1 → (r ∈ scanned next ↔ r = recordOf key (op.version ts) ∨ r ∈ scanned tree)) :
    Shows next (written map key op) := by
  refine ⟨fun e mem => ?_,fun k keyed => ?_⟩
  · rcases memWritten mem with same | old
    · exact same ▸ own
    · exact shows'.keys e old
  · have held : ∀ v, Held next k v ↔ recordOf k v = recordOf key (op.version ts) ∨ Held tree k v := fun v =>
      records _ ((recordReserved keyed.named).not.mpr keyed.outer)
    rw [findWritten]
    by_cases same : key = k
    · subst same
      rw [if_pos rfl]
      refine ⟨some (op.version ts),latestAbove ((held _).mpr (.inl rfl)) fun v inside => ?_,?_⟩
      · rcases (held v).mp inside with new | old
        · exact .inl (recordInjective new).2
        · exact .inr (by simpa using above v old)
      · cases op <;> rfl
    · rw [if_neg same]
      refine (readingCongr fun v => ?_).mpr (shows'.reads k keyed)
      rw [held]
      exact or_iff_right fun new => same (recordInjective new).1.symm

theorem putSettles (done : Returns (put key value) tree u next) :
    ∃ mid, Wrote tree (.put key value) mid ∧ Settles mid next := by
  obtain ⟨_,mid,wrote,settled⟩ := returnsBind.mp done
  exact ⟨mid,putWriteReturns wrote,settleReturns.mp settled⟩

theorem putReserved (region : Region tree) (reserved : Reserved key)
    (done : Returns (put key value) tree u next) : SameRows tree next := by
  obtain ⟨_,wrote,settles⟩ := putSettles done
  have same := wroteReserved region.levels reserved (.inl rfl) wrote
  exact same.trans (settlesSame (sameRegion region same) settles)

theorem deleteReserved (region : Region tree) (reserved : Reserved key)
    (done : Returns (delete key) tree removed next) : SameRows tree next := by
  obtain ⟨⟨hide,_⟩,_,wrote,rest⟩ := returnsBind.mp done
  obtain ⟨wrote,-⟩ := deleteWriteReturns wrote
  have named : key ≠ [] := (wroteDelete wrote).1
  have first := wroteReserved region.levels reserved (.inr rfl) wrote
  have middle := sameRegion region first
  cases hide with
  | none =>
    obtain ⟨_,last,settled,back⟩ := returnsBind.mp rest
    obtain ⟨-,rfl⟩ := returnsPure.mp back
    exact first.trans (settlesSame middle (settleReturns.mp settled))
  | some =>
    obtain ⟨_,_,put,rest⟩ := returnsBind.mp rest
    obtain ⟨_,_,settled,back⟩ := returnsBind.mp rest
    obtain ⟨-,rfl⟩ := returnsPure.mp back
    obtain ⟨_,written,settles⟩ := putVersionReturns.mp put
    have second := wroteReserved middle.levels ((recordReserved named).mpr reserved) (.inl rfl)
      (versionWriteReturns written).2
    have third := second.trans (settlesSame (sameRegion middle second) settles)
    exact first.trans (third.trans (settlesSame (sameRegion middle third) (settleReturns.mp settled)))

end
end NoeDB.TableRegion
