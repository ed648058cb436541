import NoeDB.TxnStorage

/-! Reads in a transaction through its overlay store (engine/txn.rs): the own writes first,
then the version table, then the tree, all at the snapshot. -/
namespace NoeDB.TxnOverlay
open ByteString OrderedTable StorageTypes NewestPerKey Lsm LsmTree LsmReads LsmAgreement LsmVersions MvccTable MvccMemTable Table
open Transactions TxnManager TxnSessions TxnStorage TxnOverlayStore

section
variable {store : TxnOverlayStore} {key start stop : Bytes}

theorem findApplied {entries} (asc : Ascending entries) (merged) :
    (entries.foldl applyEntry merged).find key = (findIn key entries).getD (merged.find key) := by
  induction entries generalizing merged with
  | nil => rfl
  | cons e rest ih =>
    obtain ⟨k,op⟩ := e
    obtain ⟨above,tail⟩ := List.pairwise_cons.mp asc
    rw [List.foldl_cons,ih tail,findIn]
    by_cases here : k = key
    · subst here
      have absent : findIn k rest = none := findInAbsent fun e mem same => absurd (above e mem) (by simp [same])
      cases op <;> simp [absent,applyEntry]
    · cases op <;> simp [here,applyEntry]

theorem findWalked (inside : outside (some (start,stop)) key = false) {entries : List (Bytes × Option Bytes)}
    (asc : Ascending entries) :
    findIn key ((entries.filter fun e => start ≤ e.1).takeWhile fun e => inRange start stop e.1) = findIn key entries := by
  obtain ⟨from',upTo⟩ := insideIff.mp inside
  rw [findInTakeWhile (asc.filter _),findInFilter asc]
  · cases findIn key entries <;> simp [from']
  · intro e mem low
    have above : start ≤ e.1 := by simpa using (List.mem_filter.mp mem).2
    by_cases open' : stop = []
    · simp [inRange,above,open']
    · simp [inRange,above,lt_of_le_of_lt low (upTo open')]

theorem storeRangeShows (named : key ≠ []) (alike : Alike store.base key)
    (inside : outside (some (start,stop)) key = false) (low : stop = [] → key < List.replicate 64 255) (sorter : Sorter) :
    ∃ merged : Table Bytes Bytes, store.range sorter start stop = .ok merged.entries ∧
      ∀ value, (key,value) ∈ merged.entries ↔ store.get key = .ok (some value) := by
  obtain ⟨records,done,scan⟩ := @rangeScan store.base key start stop store.view sorter inside low
  have agrees := @scanShows store.base key store.view sorter records _ named alike
    (reachesWithin named alike.searchable inside low) done
  have asc := List.pairwise_map.mp (liveAscending (newestAscending sorter
    ((store.base.storedRecords (some (start,stop)) ++ records).filterMap (ingest store.view (some (start,stop)) id))))
  generalize live (newestOf sorter _) = pairs at scan agrees asc
  have overlaid : Ascending (store.overlay.entries.filter fun e => start ≤ e.1) := store.overlay.ascending.filter _
  have base : ∀ value, findIn key pairs = some value ↔ store.base.getVisible key store.view = .ok (some value) :=
    fun value => ⟨fun found => (agrees value).mpr (memOfFindIn found),fun read => findInOfMem asc ((agrees value).mp read)⟩
  unfold range
  rw [scan]
  refine ⟨_,rfl,fun value => ?_⟩
  have merged := findInserted (fun _ => id) asc (empty : Table Bytes Bytes) key
  simp only [id] at merged
  rw [memIff,findApplied (overlaid.sublist (List.takeWhile_sublist _)),findWalked inside store.overlay.ascending,merged]
  unfold TxnOverlayStore.get
  change ((store.overlay.find key).getD _) = _ ↔ _
  cases store.overlay.find key with
  | some => simp
  | none => simpa using base value

end

section
variable {engine : Engine} {session : UInt64} {txn : Transaction} {key : Bytes}

def Searchable (mvcc : MvccMemTable) : Prop := ∀ key version, mvcc.Has key version → ¬userKeyPrefixEnd key < key

theorem storeOpens (seated : Seated engine.manager) (settled : Settled engine.manager.mvcc)
    (searchable : Searchable engine.manager.mvcc) (inside : current engine.manager session = some txn)
    (alone : Alone engine.manager.mvcc key) : ∃ store, forSession engine session = .ok store ∧
      store.base = engine.tree ∧ store.view.snapshotTs = txn.startTs ∧
      ∃ read, engine.manager.mvcc.get key store.view = .ok read ∧
        store.overlay.find key = (txn.readOwn key).or (read.map some) := by
  obtain ⟨view,viewed,snapshot⟩ := readViewCurrent inside
  obtain ⟨pairs,scan⟩ : ∃ pairs, engine.manager.mvcc.scan view = .ok pairs := by
    refine scanKeysOk fun k mem => ?_
    obtain ⟨e,stored,rfl⟩ := memUserKeys.mp mem
    exact searchable _ _ (hasKey settled (memIff.mp stored))
  obtain ⟨asc,read⟩ := scanFinds settled alone scan
  let overlay := pairs.foldl (fun overlay pair => overlay.insert pair.1 (some pair.2)) empty
  obtain ⟨_,-,-,looked⟩ := withTxnCurrent seated (fun txn => (stageOverlay overlay txn,txn)) inside
  refine ⟨⟨engine.tree,view,stageOverlay overlay txn⟩,?_,rfl,snapshot,_,read,?_⟩
  · simp [forSession,viewed,buildReadOverlay,scan,looked,overlay]
  · have staged := findInserted (fun _ => WriteOp.value) txn.writeSet.ascending overlay key
    have scanned := findInserted (fun _ => some) asc (empty : Table Bytes (Option Bytes)) key
    have nothing : (empty : Table Bytes (Option Bytes)).find key = none := rfl
    refine staged.trans ?_
    rw [scanned,nothing,Option.or_none]
    rfl

end
end NoeDB.TxnOverlay
