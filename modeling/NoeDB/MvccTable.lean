import NoeDB.LatestItem
import NoeDB.LsmReads

/-! The in-memory table of versions (mvcc/memtable.rs). A read of a user key looks at all
internal keys that begin with it, also at those of longer user keys. -/
namespace NoeDB.MvccTable
open ByteString OrderedTable StorageTypes BestSoFar LatestItem Lsm LsmReads List Table

def Reading (versions : Version → Prop) (value : Option Bytes) : Prop :=
  ∃ found, Latest Version.commitTs versions found ∧ value = found.bind shown

theorem readingCongr (same : ∀ v, versions v ↔ others v) : Reading versions value ↔ Reading others value := by
  unfold Reading
  simp [latestCongr same]

theorem readingUnique (single : ∀ v w, versions v → versions w → v.commitTs = w.commitTs → v = w)
    (first : Reading versions value) (second : Reading versions other) : value = other := by
  obtain ⟨_,latest,rfl⟩ := first
  obtain ⟨_,latest',rfl⟩ := second
  rw [latestUnique single latest latest']

structure MvccMemTable where
  data : Table Bytes Version
  intents : Table Bytes TxnId
  deriving DecidableEq

namespace MvccMemTable

def new : MvccMemTable := ⟨.empty,.empty⟩

/- `put` and `delete` differ in the version they insert. -/
def commitVersion (table : MvccMemTable) (userKey : Bytes) (version : Version) : MvccMemTable where
  data := table.data.insert (encodeInternalKey userKey version.commitTs) version
  intents := table.intents.erase (encodeInternalKey userKey version.commitTs)

def put (table : MvccMemTable) (userKey value : Bytes) (commitTs : CommitTs) : MvccMemTable :=
  table.commitVersion userKey (.put commitTs value)

def delete (table : MvccMemTable) (userKey : Bytes) (commitTs : CommitTs) : MvccMemTable :=
  table.commitVersion userKey (.tombstone commitTs)

def abortIntents (table : MvccMemTable) (txnId : TxnId) : MvccMemTable :=
  let keys := (table.intents.entries.filter fun e => e.2 = txnId).map Prod.fst
  ⟨keys.foldl Table.erase table.data,keys.foldl Table.erase table.intents⟩

def considerEntry (table : MvccMemTable) (view : ReadView) (best : Option Version) (entry : Bytes × Version) :
    Option Version :=
  if view.isVisible entry.2 (table.intents.find entry.1) then
    match best with
    | none => some entry.2
    | some b => if b.commitTs < entry.2.commitTs then some entry.2 else some b
  else best

def window (table : MvccMemTable) (userKey : Bytes) : List (Bytes × Version) :=
  (table.data.entries.filter fun e => userKey ≤ e.1 ∧ e.1 < userKeyPrefixEnd userKey).reverse

def getVersion (table : MvccMemTable) (userKey : Bytes) (view : ReadView) : Except Fault (Option Version) :=
  if userKeyPrefixEnd userKey < userKey then .error .panicked
  else .ok ((table.window userKey).foldl (table.considerEntry view) none)

def get (table : MvccMemTable) (userKey : Bytes) (view : ReadView) : Except Fault (Option Bytes) :=
  match table.getVersion userKey view with
  | .error fault => .error fault
  | .ok found => .ok (found.bind shown)

def userKeys (table : MvccMemTable) : List Bytes :=
  (table.data.entries.foldl (fun keys e => keys.insert (decodeUserKey e.1) ()) (Table.empty : Table Bytes Unit)).keys

def scanKeys (table : MvccMemTable) (view : ReadView) : List Bytes → Except Fault (List Record)
  | [] => .ok []
  | key :: rest =>
      match table.get key view with
      | .error fault => .error fault
      | .ok read =>
          match table.scanKeys view rest with
          | .error fault => .error fault
          | .ok more =>
              match read with
              | none => .ok more
              | some value => .ok ((key,value) :: more)

def scan (table : MvccMemTable) (view : ReadView) : Except Fault (List Record) := table.scanKeys view table.userKeys

def retained (minTs : CommitTs) (version : Version) : Bool := version.commitTs = 0 ∨ minTs ≤ version.commitTs

def pruneBelow (table : MvccMemTable) (minTs : CommitTs) : MvccMemTable × Nat :=
  let data := table.data.filter fun e => retained minTs e.2
  let intents := table.intents.filter fun e => ((table.data.find e.1).map (retained minTs)).getD true
  (⟨data,intents⟩,table.data.entries.length-data.entries.length)

def Has (table : MvccMemTable) (key : Bytes) (version : Version) : Prop :=
  table.data.find (encodeInternalKey key version.commitTs) = some version

structure Settled (table : MvccMemTable) : Prop where
  intents : table.intents = .empty
  stamped : ∀ ik version, table.data.find ik = some version →
    version.commitTs ≠ 0 ∧ ik = encodeInternalKey (decodeUserKey ik) version.commitTs

@[mk_iff]
structure Alone (table : MvccMemTable) (key : Bytes) : Prop where
  named : key ≠ []
  searchable : ¬userKeyPrefixEnd key < key
  own : ∀ e ∈ table.data.entries, key ≤ e.1 → e.1 < userKeyPrefixEnd key → decodeUserKey e.1 = key

instance (table key) : Decidable (Alone table key) := decidable_of_iff' _ (alone_iff table key)

/- The range in which `get_version` and `find_visible_version` look for a key. -/
structure Ranged (key : Bytes) : Prop where
  ordered : ¬userKeyPrefixEnd key < key
  holds : ∀ ts, key ≤ encodeInternalKey key ts ∧ encodeInternalKey key ts < userKeyPrefixEnd key
  newestFirst : ∀ ts older, older < ts → encodeInternalKey key ts < encodeInternalKey key older

section
variable {table : MvccMemTable} {key : Bytes} {view : ReadView} {version : Version}

theorem settledNew : Settled new := ⟨rfl,fun _ _ found => nomatch found⟩

theorem hasNew : ¬new.Has key version := fun found => nomatch found

theorem hasKey (settled : Settled table) (found : table.data.find ik = some version) :
    table.Has (decodeUserKey ik) version := by
  unfold Has
  rw [← (settled.stamped ik version found).2]
  exact found

theorem hasSingle (first : table.Has key version) (second : table.Has key other)
    (same : version.commitTs = other.commitTs) : version = other := by
  unfold Has at first second
  rw [same,second] at first
  exact (Option.some.inj first).symm

theorem hasCommit {userKey new} : (table.commitVersion userKey new).Has key version ↔ (key = userKey ∧ version = new) ∨
      (table.Has key version ∧ ¬(key = userKey ∧ version.commitTs = new.commitTs)) := by
  unfold Has commitVersion
  rw [findInsert]
  by_cases same : encodeInternalKey userKey new.commitTs = encodeInternalKey key version.commitTs
  · obtain ⟨keys,stamps⟩ := internalKeyInjective same
    rw [if_pos same]
    constructor
    · intro found
      exact .inl ⟨keys.symm,(Option.some.inj found).symm⟩
    · rintro (⟨-,rfl⟩ | ⟨-,other⟩)
      · rfl
      · exact absurd ⟨keys.symm,stamps.symm⟩ other
  · rw [if_neg same]
    constructor
    · intro found
      refine .inr ⟨found,fun both => same ?_⟩
      rw [both.1,both.2]
    · rintro (⟨rfl,rfl⟩ | ⟨found,-⟩)
      · exact absurd rfl same
      · exact found

theorem settledCommit (settled : Settled table) {userKey new} (committed : new.commitTs ≠ 0) :
    Settled (table.commitVersion userKey new) where
  intents := by rw [commitVersion,settled.intents]; rfl
  stamped ik version found := by
    unfold commitVersion at found
    rw [findInsert] at found
    split at found
    · rename_i same
      cases Option.some.inj found
      rw [← same,decodeInternalKey]
      exact ⟨committed,rfl⟩
    · exact settled.stamped ik version found

theorem hasPruned (settled : Settled table) {minTs} : (table.pruneBelow minTs).1.Has key version ↔
    table.Has key version ∧ minTs ≤ version.commitTs := by
  unfold Has pruneBelow
  simp only [findFilter,Option.filter_eq_some_iff]
  refine and_congr_right fun found => ?_
  have committed := (settled.stamped _ _ found).1
  simp [retained,committed]

theorem settledPruned (settled : Settled table) (minTs) : Settled (table.pruneBelow minTs).1 where
  intents := by simp only [pruneBelow,settled.intents]; rfl
  stamped ik version found := by
    simp only [pruneBelow,findFilter,Option.filter_eq_some_iff] at found
    exact settled.stamped ik version found.1

theorem abortSettled (settled : Settled table) (txnId) : table.abortIntents txnId = table := by
  unfold abortIntents
  cases table
  cases settled.intents
  rfl

theorem memWindow : e ∈ table.window key ↔
    table.data.find e.1 = some e.2 ∧ key ≤ e.1 ∧ e.1 < userKeyPrefixEnd key := by
  simp only [window,mem_reverse,mem_filter,decide_eq_true_eq]
  exact and_congr_left' memIff

theorem memVersions (settled : Settled table) (alone : Alone table key) :
    version ∈ (table.window key).map Prod.snd ↔ table.Has key version := by
  simp only [mem_map,memWindow]
  constructor
  · rintro ⟨⟨_,_⟩,⟨found,above,below⟩,rfl⟩
    have own := alone.own _ (memIff.mpr found) above below
    exact own ▸ hasKey settled found
  · intro found
    have of : Concerns key (encodeInternalKey key version.commitTs,[]) := .inl (decodeInternalKey _ _)
    exact ⟨(_,version),⟨found,concernsWindow alone.named alone.searchable of⟩,rfl⟩

theorem getVersionBest (settled : Settled table) (searchable : ¬userKeyPrefixEnd key < key) :
    table.getVersion key view = .ok (bestOf (visible view) Version.commitTs ((table.window key).map Prod.snd)) := by
  have step : table.considerEntry view = fun best e => keep (visible view) Version.commitTs best e.2 := by
    funext best e
    unfold considerEntry
    rw [settled.intents]
    cases best <;> rfl
  rw [getVersion,if_neg searchable,bestOf,bestFrom,foldl_map,step]

theorem getVersionLatest (settled : Settled table) (alone : Alone table key) :
    ∃ found, table.getVersion key view = .ok found ∧
      Latest Version.commitTs (fun v => table.Has key v ∧ v.commitTs ≤ view.snapshotTs) found := by
  refine ⟨_,getVersionBest settled alone.searchable,(latestCongr fun v => ?_).mp bestLatest⟩
  rw [memVersions settled alone,visibleIff]
  exact and_congr_right fun found => and_iff_right (settled.stamped _ _ found).1

theorem getReading (settled : Settled table) (alone : Alone table key) : ∃ value, table.get key view = .ok value ∧
    Reading (fun v => table.Has key v ∧ v.commitTs ≤ view.snapshotTs) value := by
  obtain ⟨found,read,latest⟩ := @getVersionLatest _ _ view settled alone
  refine ⟨found.bind shown,?_,found,latest,rfl⟩
  rw [get,read]

theorem memUserKeys : key ∈ table.userKeys ↔ ∃ e ∈ table.data.entries, decodeUserKey e.1 = key := by
  have inserted : ∀ (entries : List (Bytes × Version)) (keys : Table Bytes Unit),
      key ∈ (entries.foldl (fun keys e => keys.insert (decodeUserKey e.1) ()) keys).keys ↔
        (∃ e ∈ entries, decodeUserKey e.1 = key) ∨ key ∈ keys.keys := by
    intro entries
    induction entries with
    | nil => simp
    | cons e _ ih =>
      intro keys
      rw [foldl_cons,ih,exists_mem_cons_iff,memKeys,memKeys,findInsert]
      by_cases here : decodeUserKey e.1 = key
      · simp [here]
      · simp [here]
  rw [userKeys,inserted]
  simp [Table.keys,empty]

theorem scanKeysFind {keys} (ascending : keys.Pairwise (· < ·))
    (done : table.scanKeys view keys = .ok pairs) : Ascending pairs ∧ (∀ p ∈ pairs, p.1 ∈ keys) ∧
      ∀ key ∈ keys, table.get key view = .ok (findIn key pairs) := by
  induction keys generalizing pairs with
  | nil =>
    cases done
    simp [Ascending]
  | cons first rest ih =>
    obtain ⟨above,tail⟩ := pairwise_cons.mp ascending
    unfold scanKeys at done
    cases read : table.get first view with
    | error => simp [read] at done
    | ok value =>
      cases later : table.scanKeys view rest with
      | error => simp [read,later] at done
      | ok more =>
        obtain ⟨asc,inside,found⟩ := ih tail later
        have absent : findIn first more = none :=
          findInAbsent fun p mem same => absurd (above p.1 (inside p mem)) (by simp [same])
        cases value with
        | none =>
          simp only [read,later,Except.ok.injEq] at done
          subst done
          refine ⟨asc,fun p mem => mem_cons_of_mem _ (inside p mem),forall_mem_cons.mpr ⟨?_,found⟩⟩
          rw [read,absent]
        | some =>
          simp only [read,later,Except.ok.injEq] at done
          subst done
          refine ⟨pairwise_cons.mpr ⟨fun p mem => above p.1 (inside p mem),asc⟩,?_,?_⟩
          · exact forall_mem_cons.mpr ⟨mem_cons_self,fun p mem => mem_cons_of_mem _ (inside p mem)⟩
          · refine forall_mem_cons.mpr ⟨by simp [read,findIn],fun key mem => ?_⟩
            have differs : first ≠ key := ne_of_lt (above key mem)
            rw [found key mem,findIn,if_neg differs]

theorem scanKeysOk {keys} (searchable : ∀ key ∈ keys, ¬userKeyPrefixEnd key < key) :
    ∃ pairs, table.scanKeys view keys = .ok pairs := by
  induction keys with
  | nil => exact ⟨[],rfl⟩
  | cons _ _ ih =>
    obtain ⟨here,later⟩ := forall_mem_cons.mp searchable
    obtain ⟨_,done⟩ := ih later
    unfold scanKeys
    simp only [get,getVersion,if_neg here,done]
    split <;> exact ⟨_,rfl⟩

theorem scanFinds (settled : Settled table) (alone : Alone table key)
    (done : table.scan view = .ok pairs) : Ascending pairs ∧ table.get key view = .ok (findIn key pairs) := by
  obtain ⟨asc,inside,found⟩ := scanKeysFind (pairwise_map.mpr (Table.ascending _)) done
  refine ⟨asc,?_⟩
  by_cases stored : key ∈ table.userKeys
  · exact found key stored
  · have absent : findIn key pairs = none := findInAbsent fun p mem same => stored (same ▸ inside p mem)
    obtain ⟨best,read,latest⟩ := @getVersionLatest _ _ view settled alone
    cases best with
    | none => rw [get,read,absent]; rfl
    | some =>
      refine absurd (memUserKeys.mpr ⟨_,memIff.mpr latest.1.1,decodeInternalKey _ _⟩) stored

end
end MvccMemTable
end NoeDB.MvccTable
