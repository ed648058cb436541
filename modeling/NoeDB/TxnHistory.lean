import NoeDB.TxnOverlay

/-! The versions committed to the tree so far, those pruned since included, and which of
them the tree and the version table still show to a reader. -/
namespace NoeDB.TxnHistory
open ByteString OrderedTable StorageTypes LatestItem Lsm LsmTree LsmGc LsmVersions MvccTable MvccMemTable Option
open Transactions TxnManager TxnSessions TxnStorage TxnOverlay

abbrev History := Bytes → Version → Prop

def updated (contents : Contents) (writes : List (Bytes × WriteOp)) : Contents :=
  writes.foldl (fun contents w => Function.update contents w.1 w.2.value) contents

def Made (commitTs : CommitTs) (writes : List (Bytes × WriteOp)) (key : Bytes) (version : Version) : Prop :=
  ∃ op, findIn key writes = some op ∧ version = op.version commitTs

def extended (history : History) (commitTs : CommitTs) (writes : List (Bytes × WriteOp)) : History :=
  fun key version => Made commitTs writes key version ∨ history key version

theorem updatedAt (ascending : Ascending writes) (contents key) :
    updated contents writes key = ((findIn key writes).map WriteOp.value).getD (contents key) := by
  induction writes generalizing contents with
  | nil => rfl
  | cons w rest ih =>
    obtain ⟨k,_⟩ := w
    obtain ⟨above,tail⟩ := List.pairwise_cons.mp ascending
    refine (ih tail _).trans ?_
    rw [findIn]
    by_cases here : k = key
    · subst here
      have absent : findIn k rest = none := findInAbsent fun e mem same => absurd (above e mem) (by simp [same])
      simp [absent]
    · simp [here,Ne.symm here]

section
variable {tree next : LsmTree} {clock commitTs : CommitTs} {watched : CommitTs → Prop} {history : History}
variable {contents : Contents} {writes : List (Bytes × WriteOp)}

structure Recorded (tree : LsmTree) (clock : CommitTs) (watched : CommitTs → Prop) (history : History)
    (contents : Contents) : Prop where
  versioned : Versioned tree
  held : ∀ key v, Held tree key v → history key v
  single : ∀ key v w, history key v → history key w → v.commitTs = w.commitTs → v = w
  past : ∀ key v, history key v → v.commitTs ≤ clock
  newest : ∀ ts, watched ts → ∀ key found, Latest Version.commitTs (fun v => history key v ∧ v.commitTs ≤ ts) found →
    Latest Version.commitTs (fun v => Held tree key v ∧ v.commitTs ≤ ts) found
  contents : ∀ key, Reading (history key) (contents key)

theorem madeStamp (made : Made commitTs writes key v) : v.commitTs = commitTs := by
  obtain ⟨_,-,rfl⟩ := made
  simp

theorem madeSingle (one : Made commitTs writes key v) (two : Made commitTs writes key w) : v = w := by
  obtain ⟨_,found,rfl⟩ := one
  obtain ⟨_,found',rfl⟩ := two
  rw [found] at found'
  rw [some.inj found']

theorem madeIff (ascending : Ascending writes) :
    (∃ w ∈ writes, recordOf key v = recordOf w.1 (w.2.version commitTs)) ↔ Made commitTs writes key v := by
  constructor
  · rintro ⟨w,mem,same⟩
    obtain ⟨rfl,rfl⟩ := recordInjective same
    exact ⟨w.2,findInOfMem ascending mem,rfl⟩
  · rintro ⟨op,found,rfl⟩
    exact ⟨(key,op),memOfFindIn found,rfl⟩

theorem heldPersisted (ascending : Ascending writes) (persisted : Persisted tree commitTs writes next) : Held next key v ↔ Made commitTs writes key v ∨ Held tree key v :=
  (persisted.records _).trans (or_congr_left (madeIff ascending))

theorem recordedFresh (config) : Recorded (fresh config) 0 watched (fun _ _ => False) fun _ => none where
  versioned := versionedFresh config
  held _ _ mem := absurd mem List.not_mem_nil
  single _ _ _ no := no.elim
  past _ _ no := no.elim
  newest ts _ key found latest := by
    cases found with
    | none => exact fun v both => absurd both.1 List.not_mem_nil
    | some => exact latest.1.1.elim
  contents _ := ⟨none,fun _ no => no,rfl⟩

theorem recordedWatch (recorded : Recorded tree clock watched history contents) (after : clock ≤ clock') (fewer : ∀ ts, later ts → watched ts) :
    Recorded tree clock' later history contents :=
  {recorded with
    past := fun key v mem => le_trans (recorded.past key v mem) after
    newest := fun ts watch => recorded.newest ts (fewer ts watch) }

theorem recordedPersisted (recorded : Recorded tree clock watched history contents) (later : clock < commitTs)
    (ascending : Ascending writes) (persisted : Persisted tree commitTs writes next) :
    Recorded next commitTs watched (extended history commitTs writes) (updated contents writes) where
  versioned := persisted.versioned
  held key v mem := ((heldPersisted ascending persisted).mp mem).imp_right (recorded.held key v)
  single key v w left right same := by
    have apart : ∀ {v w}, Made commitTs writes key v → history key w → v.commitTs ≠ w.commitTs := by
      intro v w made old equal
      have early := lt_of_le_of_lt (recorded.past key w old) later
      rw [← equal,madeStamp made] at early
      exact lt_irrefl _ early
    rcases left with made | old <;> rcases right with made' | old'
    · exact madeSingle made made'
    · exact absurd same (apart made old')
    · exact absurd same.symm (apart made' old)
    · exact recorded.single key v w old old' same
  past key v mem := by
    rcases mem with made | old
    · exact le_of_eq (madeStamp made)
    · exact le_trans (recorded.past key v old) (le_of_lt later)
  newest ts watch key found latest := by
    have split : Latest Version.commitTs (fun v => (Made commitTs writes key v ∧ v.commitTs ≤ ts) ∨
        history key v ∧ v.commitTs ≤ ts) found := (latestCongr fun v => or_and_right).mp latest
    have union := latestUnion (recorded.newest ts watch key found)
      (fun v both => ⟨recorded.held key v both.1,both.2⟩) split
    exact (latestCongr fun v => by rw [heldPersisted ascending persisted,or_and_right]).mpr union
  contents key := by
    rw [updatedAt ascending]
    cases found : findIn key writes with
    | none =>
      refine (readingCongr fun v => ?_).mp (recorded.contents key)
      simp [extended,Made,found]
    | some op =>
      refine ⟨some (op.version commitTs),latestAbove (.inl ⟨op,found,rfl⟩) fun v mem => ?_,by simp⟩
      rcases mem with ⟨_,found',rfl⟩ | old
      · rw [found] at found'
        exact .inl (by rw [some.inj found'])
      · exact .inr (by simpa using lt_of_le_of_lt (recorded.past key v old) later)

theorem recordedCollected (recorded : Recorded tree clock watched history contents)
    (safe : ∀ ts, watched ts → ∀ key v w, (∀ u, Held tree key u → u.commitTs ≤ ts → u.commitTs ≤ v.commitTs) →
      v.commitTs ≤ ts → recordOf key v ∈ tree.active.iter → recordOf key w ∈ tree.active.iter →
      ¬v.commitTs < w.commitTs) : Recorded (collected tree m) clock watched history contents :=
  {recorded with
    versioned := versionedCollected recorded.versioned m
    held := fun key v mem => recorded.held key v (collectedSubset mem)
    newest := fun ts watch key found latest =>
      collectedLatest recorded.versioned (safe ts watch key) (recorded.newest ts watch key found latest) }

theorem readingRecorded (recorded : Recorded tree clock watched history contents) (watch : watched ts) (committed : Reading (fun v => history key v ∧ v.commitTs ≤ ts) value)
    (read : Reading (fun v => Held tree key v ∧ v.commitTs ≤ ts) other) : other = value := by
  obtain ⟨found,latest,rfl⟩ := committed
  refine readingUnique (fun v w left right => recorded.versioned.single key v w left.1 right.1) read ?_
  exact ⟨found,recorded.newest ts watch key found latest,rfl⟩

end

section
variable {mvcc : MvccMemTable} {tree next : LsmTree} {commitTs : CommitTs} {writes : List (Bytes × WriteOp)}

structure Mirrored (mvcc : MvccMemTable) (tree : LsmTree) : Prop where
  settled : Settled mvcc
  searchable : Searchable mvcc
  held : ∀ key v, mvcc.Has key v → Held tree key v
  suffix : ∀ key v w, mvcc.Has key v → Held tree key w → v.commitTs ≤ w.commitTs → mvcc.Has key w

theorem mirroredNew (tree) : Mirrored .new tree where
  settled := settledNew
  searchable _ _ has := absurd has hasNew
  held _ _ has := absurd has hasNew
  suffix _ _ _ has := absurd has hasNew

theorem mirroredPending (mirrored : Mirrored mvcc tree) (committed : commitTs ≠ 0)
    (past : ∀ key v, Held tree key v → v.commitTs < commitTs) (ascending : Ascending writes)
    (searchable : ∀ w ∈ writes, ¬userKeyPrefixEnd w.1 < w.1) (persisted : Persisted tree commitTs writes next) :
    Mirrored (applyPending mvcc commitTs writes) next := by
  have has : ∀ key v, (applyPending mvcc commitTs writes).Has key v ↔ Made commitTs writes key v ∨ mvcc.Has key v := by
    intro key v
    rw [hasPending ascending]
    refine or_congr_right (and_iff_left_of_imp fun old same => ?_)
    exact absurd same (ne_of_lt (past key v (mirrored.held key v old)))
  have held : ∀ key v, Held next key v ↔ Made commitTs writes key v ∨ Held tree key v :=
    fun key v => heldPersisted ascending persisted
  refine ⟨settledPending mirrored.settled committed,fun key v mem => ?_,fun key v mem => ?_,fun key v w mem in' le => ?_⟩
  · rcases (has key v).mp mem with ⟨_,found,-⟩ | old
    · exact searchable _ (memOfFindIn found)
    · exact mirrored.searchable key v old
  · exact (held key v).mpr (((has key v).mp mem).imp_right (mirrored.held key v))
  · refine (has key w).mpr ?_
    rcases (held key w).mp in' with made | old
    · exact .inl made
    · rcases (has key v).mp mem with made | own
      · have early := lt_of_le_of_lt le (past key w old)
        rw [madeStamp made] at early
        exact absurd early (lt_irrefl _)
      · exact .inr (mirrored.suffix key v w own old le)

theorem mirroredBypass (mirrored : Mirrored mvcc tree) (ascending : Ascending writes)
    (absent : ∀ w ∈ writes, ∀ v, ¬mvcc.Has w.1 v) (persisted : Persisted tree commitTs writes next) :
    Mirrored mvcc next := by
  refine ⟨mirrored.settled,mirrored.searchable,fun key v has => ?_,fun key v w has in' le => ?_⟩
  · exact (heldPersisted ascending persisted).mpr (.inr (mirrored.held key v has))
  · rcases (heldPersisted ascending persisted).mp in' with ⟨_,found,-⟩ | old
    · exact absurd has (absent _ (memOfFindIn found) v)
    · exact mirrored.suffix key v w has old le

theorem mirroredCollected (mirrored : Mirrored mvcc tree) (versioned : Versioned tree) (m) :
    Mirrored (mvcc.pruneBelow m).1 (collected tree m) := by
  have has {key v} := @hasPruned mvcc key v mirrored.settled m
  refine ⟨settledPruned mirrored.settled m,fun key v mem => ?_,fun key v mem => ?_,fun key v w mem in' le => ?_⟩
  · exact mirrored.searchable key v (has.mp mem).1
  · obtain ⟨own,kept⟩ := has.mp mem
    exact heldCollected versioned (mirrored.held key v own) kept
  · obtain ⟨own,kept⟩ := has.mp mem
    exact has.mpr ⟨mirrored.suffix key v w own (collectedSubset in') le,le_trans kept le⟩

theorem mirroredReading (mirrored : Mirrored mvcc tree)
    (read : Reading (fun v => mvcc.Has key v ∧ v.commitTs ≤ ts) (some value)) :
    Reading (fun v => Held tree key v ∧ v.commitTs ≤ ts) (some value) := by
  obtain ⟨found,latest,same⟩ := read
  cases found with
  | none => cases same
  | some v =>
    obtain ⟨⟨has,seen⟩,top⟩ := latest
    refine ⟨some v,⟨⟨mirrored.held key v has,seen⟩,?_⟩,same⟩
    rintro w ⟨held,seen'⟩
    rcases le_total w.commitTs v.commitTs with older | newer
    · exact older
    · exact top w ⟨mirrored.suffix key v w has held newer,seen'⟩

theorem storeReads (seated : Seated engine.manager) (mirrored : Mirrored engine.manager.mvcc engine.tree)
    (versioned : Versioned engine.tree) (inside : current engine.manager session = some txn)
    (unwritten : txn.writeSet.find key = none) (findable : Findable engine.tree key)
    (alone : Alone engine.manager.mvcc key) : ∃ store value, TxnOverlayStore.forSession engine session = .ok store ∧
      store.base = engine.tree ∧ store.get key = .ok value ∧
      Reading (fun v => Held engine.tree key v ∧ v.commitTs ≤ txn.startTs) value := by
  obtain ⟨store,opens,base,snapshot,read,memory,overlay⟩ :=
    storeOpens seated mirrored.settled mirrored.searchable inside alone
  obtain ⟨_,same,memoryReading⟩ := @MvccMemTable.getReading _ key store.view mirrored.settled alone
  obtain ⟨value,disk,diskReading⟩ := @LsmVersions.getReading _ key store.view versioned findable
  rw [memory,Except.ok.injEq] at same
  subst same
  rw [snapshot] at memoryReading diskReading
  rw [Transaction.readOwn,unwritten,map_none,none_or] at overlay
  cases read with
  | none =>
    refine ⟨store,value,opens,base,?_,diskReading⟩
    simp [TxnOverlayStore.get,overlay,map_none,base,disk]
  | some bytes =>
    refine ⟨store,some bytes,opens,base,?_,mirroredReading mirrored memoryReading⟩
    simp [TxnOverlayStore.get,overlay,map_some]

end
end NoeDB.TxnHistory
