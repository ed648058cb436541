import NoeDB.MvccTable
import Mathlib.Data.Finset.Basic

/-! The transaction manager (txn/manager.rs) with its transactions (transaction.rs), its
conflict checker (ssi.rs), the wait timeout (deadlock.rs) and the clock (mvcc/oracle.rs).
Nobody records a wait, so that the wait-for graph is always empty and has no cycle. -/
namespace NoeDB.Transactions
open ByteString OrderedTable StorageTypes MvccTable

/- The source keeps the text of a storage error only. -/
inductive TxnError where
  | storage (cause : StorageError)
  | serializationFailure (message : String)
  | deadlockVictim
  | waitTimeout
  | noActiveTxn
  | txnAlreadyActive
  deriving DecidableEq, Repr

inductive TxnFault where
  | error (cause : TxnError)
  | panicked
  deriving DecidableEq, Repr

abbrev Contents := Bytes → Option Bytes

inductive WriteOp where
  | put (value : Bytes)
  | delete
  deriving DecidableEq, Repr

namespace WriteOp

def value : WriteOp → Option Bytes
  | .put value => some value
  | .delete => none

def version (commitTs : CommitTs) : WriteOp → Version
  | .put value => .put commitTs value
  | .delete => .tombstone commitTs

@[simp] theorem versionStamp (op : WriteOp) (commitTs) : (op.version commitTs).commitTs = commitTs := by
  cases op <;> rfl

@[simp] theorem versionShown (op : WriteOp) (commitTs) : Lsm.shown (op.version commitTs) = op.value := by
  cases op <;> rfl

end WriteOp

inductive TxnState where
  | active
  | committed
  | aborted
  deriving DecidableEq, Repr

structure Transaction where
  id : TxnId
  startTs : CommitTs
  readSet : Finset Bytes
  writeSet : Table Bytes WriteOp
  state : TxnState
  deriving DecidableEq

namespace Transaction

def new (id : TxnId) (startTs : CommitTs) : Transaction := ⟨id,startTs,∅,.empty,.active⟩

def recordRead (txn : Transaction) (key : Bytes) : Transaction := {txn with readSet := insert key txn.readSet}

def write (txn : Transaction) (key : Bytes) (op : WriteOp) : Transaction :=
  {txn with writeSet := txn.writeSet.insert key op}

def put (txn : Transaction) (key value : Bytes) : Transaction := txn.write key (.put value)

def delete (txn : Transaction) (key : Bytes) : Transaction := txn.write key .delete

def readOwn (txn : Transaction) (key : Bytes) : Option (Option Bytes) := (txn.writeSet.find key).map WriteOp.value

end Transaction

inductive SsiDecision where
  | allow
  | abort (message : String)
  deriving DecidableEq, Repr

structure SsiChecker where
  rwEdges : Table TxnId (Finset TxnId)
  writeKeys : Table TxnId (Finset Bytes)
  deriving DecidableEq

namespace SsiChecker

def new : SsiChecker := ⟨.empty,.empty⟩

def registerCommit (ssi : SsiChecker) (txnId : TxnId) (keys : Finset Bytes) : SsiChecker :=
  {ssi with writeKeys := ssi.writeKeys.insert txnId keys}

def writersOf (ssi : SsiChecker) (reader : TxnId) : Finset TxnId := (ssi.rwEdges.find reader).getD ∅

def noteRwDependency (ssi : SsiChecker) (reader writer : TxnId) : SsiChecker :=
  if reader = writer then ssi
  else {ssi with rwEdges := ssi.rwEdges.insert reader (insert writer (ssi.writersOf reader))}

def checkCommit (ssi : SsiChecker) (txn : Transaction) : SsiDecision :=
  if ∃ e ∈ ssi.writeKeys.entries, e.1 ≠ txn.id ∧ ∃ key ∈ e.2, key ∈ txn.readSet ∧ key ∈ txn.writeSet.keys then
    .abort "write-read conflict on overlapping key"
  else if ∃ pred ∈ ssi.writersOf txn.id, txn.id ∈ ssi.writersOf pred then .abort "rw-cycle detected (SSI)"
  else .allow

def purge (ssi : SsiChecker) (txnId : TxnId) : SsiChecker where
  rwEdges := ((ssi.rwEdges.erase txnId).mapValues fun writers => writers.erase txnId).filter fun e => e.2 ≠ ∅
  writeKeys := ssi.writeKeys.erase txnId

end SsiChecker

structure CommitResult where
  commitTs : CommitTs
  keysWritten : Nat
  deriving DecidableEq, Repr

structure TxnManager where
  oracle : CommitTs
  mvcc : MvccMemTable
  nextId : TxnId
  active : Table TxnId Transaction
  ssi : SsiChecker
  sessions : Table UInt64 TxnId
  deriving DecidableEq

namespace TxnManager

def new : TxnManager := ⟨0,.new,1,.empty,.new,.empty⟩

/- What `next` of the clock returns: `saturating_add(1).max(1)` of the value before. -/
def nextTs (m : TxnManager) : CommitTs := max (if m.oracle = 18446744073709551615 then m.oracle else m.oracle+1) 1

def tick (m : TxnManager) : TxnManager := {m with oracle := m.oracle+1}

def started (m : TxnManager) (session : UInt64) : TxnManager :=
  {m.tick with
    nextId := m.nextId+1
    active := m.active.insert m.nextId (.new m.nextId m.nextTs)
    sessions := m.sessions.insert session m.nextId }

def begin (m : TxnManager) (session : UInt64) : Except TxnFault TxnId × TxnManager :=
  match m.sessions.find session with
  | some _ => (.error (.error .txnAlreadyActive),m)
  | none => (.ok m.nextId,m.started session)

def readView (m : TxnManager) (session : UInt64) : Except TxnFault ReadView :=
  match m.sessions.find session with
  | none => .error (.error .noActiveTxn)
  | some id =>
      match m.active.find id with
      | none => .error (.error .noActiveTxn)
      | some txn =>
          let others := m.active.entries.filter fun e => e.2.state = .active ∧ e.2.id ≠ id
          .ok ⟨id,txn.startTs,others.map fun e => e.2.id⟩

def changed (m : TxnManager) (id : TxnId) (txn : Transaction) : TxnManager := {m with active := m.active.insert id txn}

def withTxn {α : Type} (m : TxnManager) (session : UInt64) (f : Transaction → α × Transaction) :
    Except TxnFault α × TxnManager :=
  match m.sessions.find session with
  | none => (.error (.error .noActiveTxn),m)
  | some id =>
      match m.active.find id with
      | none => (.error (.error .noActiveTxn),m)
      | some txn =>
          if txn.state = .active then (.ok (f txn).1,m.changed id (f txn).2)
          else (.error (.error .noActiveTxn),m)

/- A read of a key in another transaction's write set makes an edge to that transaction. -/
def trackRwDependencies (m : TxnManager) (reader : TxnId) (key : Bytes) : TxnManager :=
  let writers := m.active.entries.filter fun e =>
    e.1 ≠ reader ∧ e.2.state = .active ∧ (e.2.writeSet.find key).isSome
  {m with ssi := writers.foldl (fun ssi e => ssi.noteRwDependency reader e.1) m.ssi}

def lookUp (m : TxnManager) (session : UInt64) (key : Bytes) : Except TxnFault (Option Bytes) × TxnManager :=
  match m.readView session with
  | .error fault => (.error fault,m)
  | .ok view =>
      match m.withTxn session fun txn => (txn.readOwn key,txn) with
      | (.error fault,next) => (.error fault,next)
      | (.ok (some own),next) => (.ok own,next)
      | (.ok none,next) =>
          match next.mvcc.get key view with
          | .error _ => (.error .panicked,next)
          | .ok value => (.ok value,next)

def get (m : TxnManager) (session : UInt64) (key : Bytes) : Except TxnFault (Option Bytes) × TxnManager :=
  match m.sessions.find session with
  | none => (.error (.error .noActiveTxn),m)
  | some id =>
      match m.withTxn session fun txn => ((),txn.recordRead key) with
      | (.error fault,next) => (.error fault,next)
      | (.ok _,next) => (next.trackRwDependencies id key).lookUp session key

/- `late`: the transaction has been open for longer than the wait timeout. -/
def poll (m : TxnManager) (committing : TxnId) (late : Bool) : Except TxnFault Unit :=
  if late ∧ (m.active.find committing).isSome then .error (.error .waitTimeout) else .ok ()

/- The first half of a commit: the checks, the write set and the timestamp. -/
def prepareCommit (m : TxnManager) (session : UInt64) (late : Bool) :
    Except TxnFault (TxnId × CommitTs × List (Bytes × WriteOp)) × TxnManager :=
  match m.sessions.find session with
  | none => (.error (.error .noActiveTxn),m)
  | some id =>
      match m.poll id late with
      | .error fault => (.error fault,m)
      | .ok _ =>
          match m.active.find id with
          | none => (.error (.error .noActiveTxn),m)
          | some txn =>
              match m.ssi.checkCommit txn with
              | .abort message => (.error (.error (.serializationFailure message)),m)
              | .allow => (.ok (id,m.nextTs,txn.writeSet.entries),m.tick)

def applyPending (mvcc : MvccMemTable) (commitTs : CommitTs) (pending : List (Bytes × WriteOp)) : MvccMemTable :=
  pending.foldl (fun mvcc write =>
    match write.2 with
    | .put value => mvcc.put write.1 value commitTs
    | .delete => mvcc.delete write.1 commitTs) mvcc

def closed (m : TxnManager) (session : UInt64) (id : TxnId) : TxnManager :=
  {m with active := m.active.erase id, sessions := m.sessions.erase session}

/- The second half: the write set becomes visible and the transaction is closed. -/
def finishCommit (m : TxnManager) (session : UInt64) (id : TxnId) (commitTs : CommitTs)
    (pending : List (Bytes × WriteOp)) : TxnManager :=
  {m.closed session id with
    mvcc := applyPending m.mvcc commitTs pending
    ssi := (m.ssi.registerCommit id (pending.map Prod.fst).toFinset).purge id }

/- `durable` works on the state `s` of the store that the write set goes to. -/
def commitWithDurable {σ : Type} (m : TxnManager) (session : UInt64) (late : Bool)
    (durable : CommitTs → List (Bytes × WriteOp) → σ → Except TxnFault Unit × σ) (s : σ) :
    Except TxnFault CommitResult × TxnManager × σ :=
  match m.prepareCommit session late with
  | (.error fault,next) => (.error fault,next,s)
  | (.ok (id,commitTs,pending),next) =>
      match durable commitTs pending s with
      | (.error fault,after) => (.error fault,next,after)
      | (.ok _,after) => (.ok ⟨commitTs,pending.length⟩,next.finishCommit session id commitTs pending,after)

def commit (m : TxnManager) (session : UInt64) (late : Bool) : Except TxnFault CommitResult × TxnManager :=
  let (result,next,_) := m.commitWithDurable session late (fun _ _ s => (.ok (),s)) ()
  (result,next)

def rollback (m : TxnManager) (session : UInt64) : Except TxnFault Unit × TxnManager :=
  match m.sessions.find session with
  | none => (.error (.error .noActiveTxn),m)
  | some id => (.ok (),{m.closed session id with mvcc := m.mvcc.abortIntents id, ssi := m.ssi.purge id})

def gc (m : TxnManager) (minRetainTs : CommitTs) : TxnManager := {m with mvcc := (m.mvcc.pruneBelow minRetainTs).1}

end TxnManager
end NoeDB.Transactions
