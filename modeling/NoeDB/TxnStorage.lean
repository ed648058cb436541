import NoeDB.LsmVersions
import NoeDB.TxnSessions

/-! Transactions over the storage engine (engine/txn.rs): the write set of a commit goes to
the tree key by key, and reads in a transaction see the version table and the own writes
over the tree at the snapshot. -/
namespace NoeDB.TxnStorage
open ByteString OrderedTable StorageTypes NewestPerKey Fallible List
open Lsm LsmTree LsmReads LsmCalls LsmVersions Transactions

structure Engine where
  manager : TxnManager
  tree : LsmTree
  deriving DecidableEq

/- The `put_version` calls of a commit. `fails` says which keys the disk refuses to write. -/
def putPending (fails : Bytes → Option StorageError) (commitTs : CommitTs) :
    List (Bytes × WriteOp) → LsmTree → Except TxnFault Unit × LsmTree
  | [],tree => (.ok (),tree)
  | (key,op) :: rest,tree =>
      match fails key with
      | some cause => (.error (.error (.storage cause)),tree)
      | none =>
          match execute (putVersion key (op.version commitTs)) tree with
          | (.ok _,next) => putPending fails commitTs rest next
          | (.error (.error cause),next) => (.error (.error (.storage cause)),next)
          | (.error .panicked,next) => (.error .panicked,next)

namespace Engine

/- `saturating_sub(1)` of the clock. -/
def minRetain (m : TxnManager) : CommitTs := if m.oracle = 0 then 0 else m.oracle-1

def commitToStorage (fails : Bytes → Option StorageError) (engine : Engine) (session : UInt64) (late : Bool) :
    Except TxnFault Unit × Engine :=
  match engine.manager.commitWithDurable session late (putPending fails) engine.tree with
  | (.error fault,manager,tree) => (.error fault,⟨manager,tree⟩)
  | (.ok _,manager,tree) =>
      (.ok (),⟨manager.gc (minRetain manager),(execute (gcMvccActive (minRetain manager)) tree).2⟩)

def autocommit (engine : Engine) (key : Bytes) (op : WriteOp) : Except Fault Unit × Engine :=
  let (result,tree) := execute (putVersion key (op.version engine.manager.nextTs)) engine.tree
  (result,⟨engine.manager.tick,tree⟩)

end Engine

structure TxnOverlayStore where
  base : LsmTree
  view : ReadView
  overlay : Table Bytes (Option Bytes)

def stageOverlay (overlay : Table Bytes (Option Bytes)) (txn : Transaction) : Table Bytes (Option Bytes) :=
  txn.writeSet.entries.foldl (fun overlay write => overlay.insert write.1 write.2.value) overlay

def buildReadOverlay (m : TxnManager) (session : UInt64) (view : ReadView) :
    Except TxnFault (Table Bytes (Option Bytes)) :=
  match m.mvcc.scan view with
  | .error _ => .error .panicked
  | .ok pairs =>
      let overlay := pairs.foldl (fun overlay pair => overlay.insert pair.1 (some pair.2)) Table.empty
      (m.withTxn session fun txn => (stageOverlay overlay txn,txn)).1

namespace TxnOverlayStore

def forSession (engine : Engine) (session : UInt64) : Except TxnFault TxnOverlayStore :=
  match engine.manager.readView session with
  | .error fault => .error fault
  | .ok view =>
      match buildReadOverlay engine.manager session view with
      | .error fault => .error fault
      | .ok overlay => .ok ⟨engine.tree,view,overlay⟩

def get (store : TxnOverlayStore) (key : Bytes) : Except Fault (Option Bytes) :=
  match store.overlay.find key with
  | some op => .ok op
  | none => store.base.getVisible key store.view

def inRange (start stop key : Bytes) : Bool := start ≤ key ∧ (stop = [] ∨ key < stop)

def applyEntry (merged : Table Bytes Bytes) (entry : Bytes × Option Bytes) : Table Bytes Bytes :=
  match entry.2 with
  | some value => merged.insert entry.1 value
  | none => merged.erase entry.1

/- The overlay is walked from `start` on until a key is out of range. -/
def range (sorter : Sorter) (store : TxnOverlayStore) (start stop : Bytes) : Except Fault (List Record) :=
  match store.base.rangeVisible sorter start stop store.view with
  | .error fault => .error fault
  | .ok pairs =>
      let merged := pairs.foldl (fun merged pair => merged.insert pair.1 pair.2) Table.empty
      let entries := (store.overlay.entries.filter fun e => start ≤ e.1).takeWhile fun e => inRange start stop e.1
      .ok (entries.foldl applyEntry merged).entries

def mergeLatest (base : LsmTree) (view : ReadView) : List Record → Table Bytes Bytes → Except Fault (Table Bytes Bytes)
  | [],merged => .ok merged
  | (key,value) :: rest,merged =>
      match base.getVisible key view with
      | .error .panicked => .error .panicked
      | .ok (some old) => mergeLatest base view rest (merged.insert key old)
      | _ => mergeLatest base view rest (merged.insert key value)

def iter (sorter : Sorter) (store : TxnOverlayStore) : Except Fault (List Record) :=
  match store.base.iter sorter with
  | .error fault => .error fault
  | .ok pairs =>
      match mergeLatest store.base store.view pairs .empty with
      | .error fault => .error fault
      | .ok merged => .ok (store.overlay.entries.foldl applyEntry merged).entries

end TxnOverlayStore

section
variable {fails : Bytes → Option StorageError} {commitTs : CommitTs} {tree next : LsmTree}

def applied (fails : Bytes → Option StorageError) (pending : List (Bytes × WriteOp)) : List (Bytes × WriteOp) :=
  pending.takeWhile fun write => (fails write.1).isNone

structure Persisted (tree : LsmTree) (commitTs : CommitTs) (written : List (Bytes × WriteOp)) (next : LsmTree) : Prop where
  versioned : Versioned next
  records : ∀ r, r ∈ scanned next ↔ (∃ w ∈ written, r = recordOf w.1 (w.2.version commitTs)) ∨ r ∈ scanned tree
  active : ∀ r ∈ next.active.iter, (∃ w ∈ written, r = recordOf w.1 (w.2.version commitTs)) ∨ r ∈ tree.active.iter
  moves : Moves tree next

theorem persistedTrans (one : Persisted tree commitTs first mid)
    (two : Persisted mid commitTs second next) : Persisted tree commitTs (first ++ second) next := by
  have split : ∀ r : Record, (∃ w ∈ first ++ second, r = recordOf w.1 (w.2.version commitTs)) ↔
      (∃ w ∈ second, r = recordOf w.1 (w.2.version commitTs)) ∨ ∃ w ∈ first, r = recordOf w.1 (w.2.version commitTs) := by
    intro r
    simp only [mem_append,or_and_right,exists_or]
    exact or_comm
  refine ⟨two.versioned,fun r => ?_,fun r mem => ?_,one.moves.trans two.moves⟩
  · rw [two.records,one.records,split,or_assoc]
  · rw [split,or_assoc]
    exact (two.active r mem).imp_right (one.active r)

def Storable (write : Bytes × WriteOp) : Prop := FileFits (.putVersion write.1 (write.2.version 1))

instance (write) : Decidable (Storable write) := inferInstanceAs (Decidable (FileFits _))

theorem storableValue (storable : Storable write) (commitTs) : (write.2.version commitTs).value.length < 2^32 ∧
      write.1.length+(write.2.version commitTs).value.length+39 < 2^32 := by
  obtain ⟨key,op⟩ := write
  have short : key.length+8 < 2^16 := storable.1
  have small : (op.version 1).value.length+2^17 < 2^32 := storable.2
  have same : (op.version commitTs).value = (op.version 1).value := by cases op <;> rfl
  simp only [same]
  omega

theorem putVersionPersists (committed : commitTs ≠ 0) (storable : Storable (key,op))
    (versioned : Versioned tree) (fresh : ∀ v, Held tree key v → v.commitTs ≠ commitTs) :
    ∃ next, execute (putVersion key (op.version commitTs)) tree = (.ok (),next) ∧
      Persisted tree commitTs [(key,op)] next := by
  obtain ⟨fits,short⟩ := storableValue storable commitTs
  have stamp : (op.version commitTs).commitTs = commitTs := by simp
  obtain ⟨next,returned,added⟩ := putVersionAdds versioned (stamp.symm ▸ committed) fits
    (fun v held => stamp.symm ▸ fresh v held)
  refine ⟨next,returned,added.versioned,fun r => ?_,fun r mem => ?_,putVersionMoves short returned⟩
  · rw [exists_mem_cons_iff,added.records]
    simp
  · exact (added.active r mem).imp_left fun same => ⟨(key,op),mem_cons_self,same⟩

theorem putPendingPersists (committed : commitTs ≠ 0) {pending} (ascending : Ascending pending)
    (storable : ∀ w ∈ pending, Storable w) (versioned : Versioned tree)
    (fresh : ∀ w ∈ pending, ∀ v, Held tree w.1 v → v.commitTs ≠ commitTs) :
    ∃ result next, putPending fails commitTs pending tree = (result,next) ∧
      Persisted tree commitTs (applied fails pending) next ∧ (result = .ok () ↔ ∀ w ∈ pending, fails w.1 = none) := by
  induction pending generalizing tree with
  | nil => exact ⟨_,tree,rfl,⟨versioned,by simp [applied],fun r => .inr,.refl⟩,by simp⟩
  | cons write rest ih =>
    obtain ⟨key,op⟩ := write
    obtain ⟨above,tail⟩ := pairwise_cons.mp ascending
    obtain ⟨here,later⟩ := forall_mem_cons.mp storable
    obtain ⟨new,others⟩ := forall_mem_cons.mp fresh
    unfold putPending
    cases failed : fails key with
    | some =>
      refine ⟨_,tree,rfl,⟨versioned,by simp [applied,failed],fun r => .inr,.refl⟩,?_⟩
      simp [failed]
    | none =>
      obtain ⟨mid,ran,added⟩ := putVersionPersists committed here versioned new
      have fresh' : ∀ w ∈ rest, ∀ v, Held mid w.1 v → v.commitTs ≠ commitTs := by
        intro w mem v held
        rcases (added.records _).mp held with ⟨q,first,same⟩ | old
        · rw [mem_singleton.mp first] at same
          exact absurd (recordInjective same).1 (ne_of_lt (above w mem)).symm
        · exact others w mem v old
      obtain ⟨result,next,done,wrote,whole⟩ := ih tail later added.versioned fresh'
      have first : applied fails ((key,op) :: rest) = [(key,op)] ++ applied fails rest := by
        simp [applied,failed]
      refine ⟨result,next,by simp only [ran,done],first ▸ persistedTrans added wrote,?_⟩
      rw [whole,forall_mem_cons]
      simp [failed]

end
end NoeDB.TxnStorage
