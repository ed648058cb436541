import NoeDB.LsmRecovery
import NoeDB.TxnStorage
import Mathlib.Data.List.TakeWhile

/-! What a commit leaves that is interrupted between two of its `put_version` calls, by a
failing call or by a crash. -/
namespace NoeDB.TxnAtomicity
open ByteString OrderedTable StorageTypes LatestItem Lsm LsmTree LsmReads List
open LsmRecovery LsmVersions Transactions TxnManager TxnSessions TxnStorage

def Sees (tree : LsmTree) (view : ReadView) (commitTs : CommitTs) (write : Bytes × WriteOp) : Prop :=
  tree.findVisibleVersion write.1 view = .ok (some (write.2.version commitTs))

def AllOrNone (tree : LsmTree) (commitTs : CommitTs) (writes : List (Bytes × WriteOp)) : Prop :=
  ∀ view, (∀ w ∈ writes, Sees tree view commitTs w) ∨ ∀ w ∈ writes, ¬Sees tree view commitTs w

structure Prepared (engine : Engine) (session : UInt64) (txn : Transaction) : Prop where
  inside : current engine.manager session = some txn
  ticking : Ticking engine.manager
  allowed : engine.manager.ssi.checkCommit txn = .allow
  stored : ∃ seg records, Stored engine.tree seg records
  versioned : Versioned engine.tree
  past : ∀ key v, Held engine.tree key v → v.commitTs ≤ engine.manager.oracle
  storable : ∀ w ∈ txn.writeSet.entries, Storable w
  findable : ∀ w ∈ txn.writeSet.entries, Findable engine.tree w.1
  apart : ∀ w ∈ txn.writeSet.entries, ∀ q ∈ txn.writeSet.entries,
    encodeInternalKey q.1 engine.manager.nextTs ≠ w.1

def FirstFails (fails : Bytes → Option StorageError) (writes : List (Bytes × WriteOp)) : Prop :=
  ∃ w ∈ writes.head?, (fails w.1).isSome

section
variable {tree next : LsmTree} {commitTs : CommitTs} {writes written : List (Bytes × WriteOp)}
variable (persisted : Persisted tree commitTs written next) (part : ∀ w ∈ written, w ∈ writes)
include persisted part

theorem heldAfter (ascending : Ascending writes) {w} (mem : w ∈ writes) {v} : Held next w.1 v ↔
    (w ∈ written ∧ v = w.2.version commitTs) ∨ Held tree w.1 v := by
  unfold Held
  rw [persisted.records]
  refine or_congr_left ⟨?_,fun ⟨own,same⟩ => ⟨w,own,same ▸ rfl⟩⟩
  rintro ⟨q,own,same⟩
  obtain ⟨keys,rfl⟩ := recordInjective same
  have equal : q.2 = w.2 := by
    have first := findInOfMem ascending (part q own)
    rw [← keys,findInOfMem ascending mem] at first
    exact (Option.some.inj first).symm
  have pairs : q = w := Prod.ext keys.symm equal
  exact pairs ▸ ⟨own,rfl⟩

variable (findable : ∀ w ∈ writes, Findable tree w.1)
variable (apart : ∀ w ∈ writes, ∀ q ∈ writes, encodeInternalKey q.1 commitTs ≠ w.1)
include findable apart

theorem findableAfter (mem : w ∈ writes) : Findable next w.1 where
  named := (findable w mem).named
  searchable := (findable w mem).searchable
  free r stored := by
    rcases (persisted.records r).mp stored with ⟨q,own,rfl⟩ | old
    · have key : (recordOf q.1 (q.2.version commitTs)).1 = encodeInternalKey q.1 commitTs := by
        rw [recordOf,WriteOp.versionStamp]
      exact key ▸ apart w mem q (part q own)
    · exact (findable w mem).free r old

variable (ascending : Ascending writes) (past : ∀ key v, Held tree key v → v.commitTs < commitTs)
include ascending past

theorem seesIff {view w} (mem : w ∈ writes) : Sees next view commitTs w ↔ w ∈ written ∧ commitTs ≤ view.snapshotTs := by
  have held {v} := @heldAfter _ _ _ _ _ persisted part ascending w mem v
  have findable' := findableAfter persisted part findable apart mem
  obtain ⟨_,read,latest⟩ := @ownLatest _ _ view (versionedOwn persisted.versioned findable')
  unfold Sees
  rw [read,Except.ok.injEq]
  constructor
  · rintro rfl
    obtain ⟨⟨stored,seen⟩,-⟩ := latest
    rw [WriteOp.versionStamp] at seen
    rcases held.mp stored with ⟨own,-⟩ | old
    · exact ⟨own,seen⟩
    · have early := past w.1 _ old
      rw [WriteOp.versionStamp] at early
      exact absurd early (lt_irrefl _)
  · rintro ⟨own,seen⟩
    have stored := held.mpr (.inl ⟨own,rfl⟩)
    refine latestUnique (fun v u left right => persisted.versioned.single w.1 v u left.1 right.1) latest ?_
    refine latestAbove ⟨stored,by simpa using seen⟩ fun v both => ?_
    rcases held.mp both.1 with ⟨-,rfl⟩ | old
    · exact .inl rfl
    · exact .inr (by simpa using past w.1 v old)

theorem atomicIff : AllOrNone next commitTs writes ↔ written = [] ∨ ∀ w ∈ writes, w ∈ written := by
  have sees {view w} := @seesIff _ _ _ _ _ persisted part findable apart ascending past view w
  constructor
  · intro atomic
    have top : commitTs ≤ ReadView.latest.snapshotTs := not_lt.mp latestBounds
    rcases atomic .latest with all | none
    · exact .inr fun w mem => ((sees mem).mp (all w mem)).1
    · refine .inl (eq_nil_iff_forall_not_mem.mpr fun w own => ?_)
      exact none w (part w own) ((sees (part w own)).mpr ⟨own,top⟩)
  · intro whole view
    by_cases seen : commitTs ≤ view.snapshotTs
    · rcases whole with rfl | all
      · exact .inr fun w mem saw => nomatch ((sees mem).mp saw).1
      · exact .inl fun w mem => (sees mem).mpr ⟨all w mem,seen⟩
    · exact .inr fun w mem saw => seen ((sees mem).mp saw).2

end

theorem appliedNil (filled : writes ≠ []) : applied fails writes = [] ↔ FirstFails fails writes := by
  cases writes with
  | nil => exact absurd rfl filled
  | cons w =>
    simp only [applied,FirstFails,List.head?_cons,Option.mem_some_iff,exists_eq_left',takeWhile_cons]
    cases fails w.1 <;> simp

theorem failedCommitLeaves (prepared : Prepared engine session txn)
    (failing : ∃ w ∈ txn.writeSet.entries, (fails w.1).isSome) :
    ∃ fault tree, engine.commitToStorage fails session false = (.error fault,⟨engine.manager.tick,tree⟩) ∧
      Persisted engine.tree engine.manager.nextTs (applied fails txn.writeSet.entries) tree := by
  obtain ⟨id,own,active⟩ := currentIff.mp prepared.inside
  have late := tickAbove prepared.ticking
  obtain ⟨result,tree,done,persisted,whole⟩ := @putPendingPersists fails _ _ (nextTsPositive prepared.ticking) _
    txn.writeSet.ascending prepared.storable prepared.versioned
    fun w mem v held => ne_of_lt (lt_of_le_of_lt (prepared.past w.1 v held) late)
  have ready : engine.manager.prepareCommit session false =
      (.ok (id,engine.manager.nextTs,txn.writeSet.entries),engine.manager.tick) := by
    simp [prepareCommit,own,active,poll,prepared.allowed]
  cases result with
  | ok =>
    obtain ⟨w,mem,refused⟩ := failing
    rw [whole.mp rfl w mem] at refused
    cases refused
  | error fault =>
    refine ⟨fault,tree,?_,persisted⟩
    simp [Engine.commitToStorage,commitWithDurable,ready,done]

def staged : Engine :=
  let started := (TxnManager.new.begin 1).2
  let first := (started.withTxn 1 fun txn => ((),txn.put [97] [1])).2
  ⟨(first.withTxn 1 fun txn => ((),txn.put [98] [2])).2,fresh .default⟩

def refuse (key : Bytes) : Bytes → Option StorageError := fun k => if k = key then some (.io "disk full") else none

def stagedTxn : Transaction := ⟨1,1,∅,(Table.empty.insert [97] (.put [1])).insert [98] (.put [2]),.active⟩

theorem stagedPrepared : Prepared staged 1 stagedTxn where
  inside := by decide +kernel
  ticking := by decide
  allowed := by decide +kernel
  stored := ⟨_,_,storedFresh .default⟩
  versioned := versionedFresh .default
  past key v held := absurd held not_mem_nil
  storable := by decide +kernel
  findable := by decide +kernel
  apart := by decide +kernel

end NoeDB.TxnAtomicity
