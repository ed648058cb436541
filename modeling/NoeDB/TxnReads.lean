import NoeDB.TxnOverlay

/-! The three ways to read in a transaction (engine/txn.rs `TxnOverlayStore`): `get`, `iter`
and `range`, against one meaning: the own write, else the newest version at the snapshot. -/
namespace NoeDB.TxnReads
open ByteString OrderedTable StorageTypes NewestPerKey LatestItem Lsm LsmTree LsmReads LsmCompaction Option
  LsmAgreement List
open MvccTable MvccMemTable Transactions TxnManager TxnSessions TxnStorage TxnOverlayStore TxnOverlay

def Stored (tree : LsmTree) (key : Bytes) (version : Version) : Prop :=
  ∃ r ∈ scanned tree, Concerns key r ∧ versionOf r = some version

def Seen (versions : Version → Prop) (snapshot : CommitTs) (version : Version) : Prop :=
  versions version ∧ version.commitTs ≠ 0 ∧ version.commitTs ≤ snapshot

def Anywhere (engine : Engine) (key : Bytes) (version : Version) : Prop :=
  Stored engine.tree key version ∨ engine.manager.mvcc.Has key version

def Specified (engine : Engine) (txn : Transaction) (key : Bytes) (value : Option Bytes) : Prop :=
  match txn.readOwn key with
  | some own => value = own
  | none => Reading (Seen (Anywhere engine key) txn.startTs) value

structure Clear (engine : Engine) (key : Bytes) : Prop where
  named : key ≠ []
  alike : Alike engine.tree key
  settled : Settled engine.manager.mvcc
  searchable : Searchable engine.manager.mvcc
  alone : Alone engine.manager.mvcc key
  listed : ∀ r ∈ scanned engine.tree, ∀ k parts, readAs r = some (k,parts) → ¬userKeyPrefixEnd k < k
  consistent : ∀ v w, Stored engine.tree key v → engine.manager.mvcc.Has key w → v.commitTs = w.commitTs → v = w

/- There is an own write; or what the version table shows of the key, else the tree, is its
newest version at the snapshot, and a key that the version table does not show is in the
tree now exactly if it was at the snapshot. -/
def Steady (engine : Engine) (txn : Transaction) (key : Bytes) : Prop :=
  txn.readOwn key = none → ∀ table snapshot now,
    Reading (Seen (engine.manager.mvcc.Has key) txn.startTs) table →
    Reading (Seen (Stored engine.tree key) txn.startTs) snapshot →
    Reading (Seen (Stored engine.tree key) ReadView.latest.snapshotTs) now →
    Reading (Seen (Anywhere engine key) txn.startTs) (table.or snapshot) ∧
      (table = none → (now.isSome ↔ snapshot.isSome))

section
variable {tree : LsmTree} {key : Bytes} {view : ReadView}

theorem alikeReading (named : key ≠ []) (alike : Alike tree key) : ∃ value, tree.getVisible key view = .ok value ∧
    Reading (Seen (Stored tree key) view.snapshotTs) value := by
  refine ⟨_,by rw [getVisible,alikeFind alike],_,(latestCongr fun v => ?_).mp bestLatest,rfl⟩
  rw [memVersions named alike,visibleIff]
  rfl

theorem iterShows (named : key ≠ []) (alike : Alike tree key) (sorter : Sorter) : ∃ pairs, tree.iter sorter = .ok pairs ∧
    Ascending pairs ∧ (∀ p ∈ pairs, ∃ r ∈ scanned tree, ∃ parts, readAs r = some (p.1,parts)) ∧
      tree.getVisible key .latest = .ok (findIn key pairs) := by
  have done : activeRecords none tree.active = .ok tree.active.iter := rfl
  have shows := @scanShows tree key .latest sorter _ none named alike ⟨rfl,fun _ _ => trivial⟩ done
  have asc := pairwise_map.mp (liveAscending (newestAscending sorter
    ((tree.storedRecords none ++ tree.active.iter).filterMap (ingest .latest none id))))
  have scan : tree.iter sorter = .ok (live (newestOf sorter
      ((tree.storedRecords none ++ tree.active.iter).filterMap (ingest .latest none id)))) := rfl
  refine ⟨_,scan,asc,fun p mem => ?_,?_⟩
  · obtain ⟨_,kept⟩ := memLive.mp (show (p.1,p.2) ∈ _ from mem)
    obtain ⟨r,stored,taken⟩ := mem_filterMap.mp (newestKept kept).1
    obtain ⟨value,read,-⟩ := ingestIff.mp taken
    exact ⟨r,stored,_,read⟩
  · obtain ⟨value,read,-⟩ := @alikeReading tree key .latest named alike
    rw [read]
    cases value with
    | some value => rw [findInOfMem asc ((shows value).mp read)]
    | none =>
      cases found : findIn key (live (newestOf sorter _)) with
      | none => rfl
      | some value =>
        have present := (shows value).mpr (memOfFindIn found)
        rw [read] at present
        cases present

def settledOn (tree : LsmTree) (view : ReadView) (key value : Bytes) : Bytes :=
  match tree.getVisible key view with
  | .ok (some old) => old
  | _ => value

theorem mergeStep (value rest merged)
    (searchable : tree.getVisible key view ≠ .error .panicked) : mergeLatest tree view ((key,value) :: rest) merged =
      mergeLatest tree view rest (merged.insert key (settledOn tree view key value)) := by
  unfold settledOn
  rw [mergeLatest]
  cases read : tree.getVisible key view with
  | ok old => cases old <;> rfl
  | error fault =>
    cases fault with
    | panicked => exact absurd read searchable
    | error => rfl

theorem mergeFinds (asc : Ascending pairs)
    (searchable : ∀ p ∈ pairs, tree.getVisible p.1 view ≠ .error .panicked) (merged) :
    ∃ next, mergeLatest tree view pairs merged = .ok next ∧
      next.find key = ((findIn key pairs).map (settledOn tree view key)).or (merged.find key) := by
  induction pairs generalizing merged with
  | nil => exact ⟨merged,rfl,rfl⟩
  | cons p rest ih =>
    obtain ⟨k,value⟩ := p
    obtain ⟨above,tail⟩ := pairwise_cons.mp asc
    obtain ⟨here,later⟩ := forall_mem_cons.mp searchable
    obtain ⟨next,done,finds⟩ := ih tail later (merged.insert k (settledOn tree view k value))
    refine ⟨next,(mergeStep value rest merged here).trans done,?_⟩
    rw [finds,Table.findInsert,findIn]
    by_cases same : k = key
    · have absent : findIn key rest = none :=
        findInAbsent fun e mem equal => absurd (above e mem) (by simp [equal,same])
      rw [if_pos same,if_pos same,absent,same]
      rfl
    · rw [if_neg same,if_neg same]

theorem decodeNeverPanics (bytes) : decodeOrLegacy bytes ≠ .error .panicked := by
  unfold decodeOrLegacy
  split
  · exact decodeVersionCalm bytes
  · simp

theorem searchNeverPanics (ordered : ¬userKeyPrefixEnd key < key) : tree.getVisible key view ≠ .error .panicked := by
  unfold getVisible
  rw [findVisibleFlat,if_neg ordered,considerRecordsFault]
  intro panics
  cases wrong : faultIn key (pointRecords tree key) with
  | none =>
    rw [wrong] at panics
    cases panics
  | some fault =>
    rw [wrong] at panics
    cases Except.error.inj panics
    obtain ⟨r,-,bad⟩ := exists_of_findSome?_eq_some wrong
    split at bad
    · cases decoded : decodeOrLegacy r.2 with
      | ok => simp [decoded] at bad
      | error =>
        simp only [decoded,some.injEq] at bad
        exact decodeNeverPanics r.2 (bad ▸ decoded)
    · cases bad

end

section
variable {store : TxnOverlayStore} {key : Bytes}

theorem storeIterShows (named : key ≠ []) (alike : Alike store.base key)
    (listed : ∀ r ∈ scanned store.base, ∀ k parts, readAs r = some (k,parts) → ¬userKeyPrefixEnd k < k) (read : store.base.getVisible key store.view = .ok snapshot)
    (latest : store.base.getVisible key .latest = .ok now) (sorter : Sorter) :
    ∃ merged : Table Bytes Bytes, store.iter sorter = .ok merged.entries ∧
      merged.find key = (store.overlay.find key).getD (now.map fun value => snapshot.getD value) := by
  obtain ⟨pairs,scan,asc,from',shows⟩ := iterShows named alike sorter
  have searchable : ∀ p ∈ pairs, store.base.getVisible p.1 store.view ≠ .error .panicked := by
    intro p mem
    obtain ⟨r,stored,parts,as⟩ := from' p mem
    exact searchNeverPanics (listed r stored p.1 parts as)
  obtain ⟨next,done,finds⟩ := mergeFinds asc searchable (.empty : Table Bytes Bytes)
  refine ⟨store.overlay.entries.foldl applyEntry next,by simp only [TxnOverlayStore.iter,scan,done],?_⟩
  have settles : settledOn store.base store.view key = fun value => snapshot.getD value := by
    unfold settledOn
    rw [read]
    cases snapshot <;> rfl
  rw [latest] at shows
  cases shows
  rw [findApplied store.overlay.ascending,finds,settles,Table.findEmpty,or_none]
  rfl

theorem findOfMembers {merged : Table Bytes Bytes}
    (members : ∀ v, (key,v) ∈ merged.entries ↔ value = some v) : findIn key merged.entries = value := by
  cases value with
  | some v => exact findInOfMem merged.ascending ((members v).mpr rfl)
  | none =>
    refine findInAbsent fun e mem same => ?_
    have present := (members e.2).mp (same ▸ mem)
    cases present

end

section
variable {engine : Engine} {session : UInt64} {txn : Transaction} {key : Bytes}

theorem seenUnique (single : ∀ v w, versions v → versions w → v.commitTs = w.commitTs → v = w)
    (one : Reading (Seen versions ts) first) (two : Reading (Seen versions ts) second) : first = second :=
  readingUnique (fun v w left right => single v w left.1 right.1) one two

theorem tableReading (clear : Clear engine key) {view} (read : engine.manager.mvcc.get key view = .ok value) :
    Reading (Seen (engine.manager.mvcc.Has key) view.snapshotTs) value := by
  obtain ⟨_,read',reading⟩ := @MvccMemTable.getReading _ _ view clear.settled clear.alone
  rw [read] at read'
  cases read'
  refine (readingCongr fun v => ?_).mp reading
  exact ⟨fun both => ⟨both.1,(clear.settled.stamped _ _ both.1).1,both.2⟩,fun all => ⟨all.1,all.2.2⟩⟩

end

def written : Engine := ((⟨.new,fresh .default⟩ : Engine).autocommit [107] (.put [1])).2
def steadyEngine : Engine := {written with manager := (written.manager.begin 1).2}
def steadyTxn : Transaction := .new 1 2

theorem clearSteady : Seated steadyEngine.manager ∧ current steadyEngine.manager 1 = some steadyTxn ∧
    Clear steadyEngine [107] := by
  have seated : Seated (TxnManager.new.tick.started 1) := seatedStarted (seatedTick seatedNew (by decide)) (by decide)
  refine ⟨seated,by decide +kernel,by decide,by decide +kernel,settledNew,fun _ _ found => absurd found hasNew,
    by decide +kernel,?_,fun _ _ _ found => absurd found hasNew⟩
  have shape : ∀ r ∈ scanned steadyEngine.tree, readAs r = some ([107],1,false,[1]) := by decide +kernel
  intro r mem k _ read
  rw [shape r mem] at read
  cases read
  decide

def laterEngine : Engine :=
  ((⟨(TxnManager.new.begin 1).2,fresh .default⟩ : Engine).autocommit [107] (.put [1])).2

theorem laterUnseen : Specified laterEngine (.new 1 1) [107] none := by
  have shape : ∀ r ∈ scanned laterEngine.tree, versionOf r = some (.put 2 [1]) := by decide +kernel
  refine ⟨none,fun v seen => ?_,rfl⟩
  rcases seen.1 with ⟨r,mem,-,found⟩ | found
  · rw [shape r mem] at found
    cases found
    exact absurd seen.2.2 (by decide)
  · exact absurd found hasNew

end NoeDB.TxnReads
