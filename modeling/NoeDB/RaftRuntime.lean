import NoeDB.RaftCore

/-! The runtime of one Raft peer (node.rs) over its durable store (storage.rs).
A storage call that fails leaves the store in whatever state the failing call
made; the core has already been changed by then, as in the source. -/
namespace NoeDB.RaftRuntime
open RaftTypes RaftCore

inductive StorageError where
  | io (message : String)
  | corrupt (message : String)
  | snapshot (message : String)
  deriving DecidableEq, Repr

abbrev Fallible (S : Type) := S × Except StorageError Unit

/- The storage trait. `reopen` is what the process finds after it lost its memory:
the store a new process opens on the same medium. -/
class RaftStorage (S : Type) where
  loadHardState : S → Except StorageError HardState
  saveHardState : S → HardState → Fallible S
  loadLog : S → Except StorageError RaftLog
  append : S → Nat → List LogEntry → Fallible S
  saveSnapshot : S → Snapshot → Fallible S
  sync : S → Fallible S
  reopen : S → S

structure MemStorage where
  hard : HardState
  log : RaftLog
  snapshot : Option Snapshot
  deriving DecidableEq, Repr

namespace MemStorage

def new : MemStorage := ⟨{},.new,none⟩

def saveHardState (s : MemStorage) (hs : HardState) : MemStorage := {s with hard := hs}

def append (s : MemStorage) (fromIndex : Nat) (entries : List LogEntry) : MemStorage :=
  let log := s.log.truncateFrom (indexPrev fromIndex)
  {s with log := (log.append entries).1}

def saveSnapshot (s : MemStorage) (snap : Snapshot) : MemStorage :=
  {s with snapshot := some snap, log := s.log.restore snap.index snap.term []}

end MemStorage

instance memRaftStorage : RaftStorage MemStorage where
  loadHardState s := .ok s.hard
  saveHardState s hs := (s.saveHardState hs,.ok ())
  loadLog s := .ok s.log
  append s fromIndex entries := (s.append fromIndex entries,.ok ())
  saveSnapshot s snap := (s.saveSnapshot snap,.ok ())
  sync s := (s,.ok ())
  reopen s := s

structure Disk where
  hard : Option HardState
  log : Option RaftLog
  snapshot : Option Snapshot
  deriving DecidableEq, Repr

/- `write_record` replaces one file by a rename; `outcomes` says what the coming
writes do, a message being the error of a write that left its file as it was. -/
def writeRecords : Disk → List (Option String) → List (Disk → Disk) →
    Disk × List (Option String) × Except StorageError Unit
  | disk,outcomes,[] => (disk,outcomes,.ok ())
  | disk,some message :: rest,_ :: _ => (disk,rest,.error (.io message))
  | disk,outcomes,write :: writes => writeRecords (write disk) outcomes.tail writes

theorem writeRecordsOk (ok : (writeRecords disk outcomes writes).2.2 = .ok ()) :
    (writeRecords disk outcomes writes).1 = writes.foldl (fun disk write => write disk) disk := by
  induction writes generalizing disk outcomes with
  | nil => simp [writeRecords]
  | cons _ _ ih =>
    match outcomes with
    | some message :: rest => simp [writeRecords] at ok
    | none :: rest => exact ih ok
    | [] => exact ih ok

def MemStorage.records (s : MemStorage) : List (Disk → Disk) :=
  [fun disk => {disk with hard := some s.hard},fun disk => {disk with log := some s.log}] ++
    match s.snapshot with
    | some snap => [fun disk => {disk with snapshot := some snap}]
    | none => []

theorem recordsHard (s : MemStorage) (disk : Disk) :
    (s.records.foldl (fun disk write => write disk) disk).hard = some s.hard := by
  unfold MemStorage.records
  cases s.snapshot <;> rfl

/- The file store keeps the memory store's fields and writes them out when it is
synced. A record file holds the value it was written with: the serializer and
the checksum are external and taken to read back what they wrote. A store that
is not dirty agrees with its files. -/
structure FileStorage where
  mem : MemStorage
  dirty : Bool
  disk : Disk
  outcomes : List (Option String)
  written : dirty = false → disk.hard.getD {} = mem.hard

namespace FileStorage

def reload (disk : Disk) : MemStorage where
  hard := disk.hard.getD {}
  log := disk.log.getD .new
  snapshot := disk.snapshot

def openDir (disk : Disk) (outcomes : List (Option String)) : FileStorage :=
  ⟨reload disk,false,disk,outcomes,fun _ => rfl⟩

def edit (s : FileStorage) (mem : MemStorage) : FileStorage :=
  ⟨mem,true,s.disk,s.outcomes,by simp⟩

def sync (s : FileStorage) : Fallible FileStorage :=
  if !s.dirty then (s,.ok ())
  else
    let out := writeRecords s.disk s.outcomes s.mem.records
    match done : out.2.2 with
    | .ok _ =>
        (⟨s.mem,false,out.1,out.2.1,by
          intro _
          rw [writeRecordsOk done,recordsHard]
          rfl⟩,.ok ())
    | .error e => (⟨s.mem,true,out.1,out.2.1,by simp⟩,.error e)

end FileStorage

instance fileRaftStorage : RaftStorage FileStorage where
  loadHardState s := .ok s.mem.hard
  saveHardState s hs := (s.edit (s.mem.saveHardState hs),.ok ())
  loadLog s := .ok s.mem.log
  append s fromIndex entries := (s.edit (s.mem.append fromIndex entries),.ok ())
  saveSnapshot s snap := (s.edit (s.mem.saveSnapshot snap),.ok ())
  sync s := s.sync
  reopen s := FileStorage.openDir s.disk s.outcomes

abbrev Error := RaftError StorageError
abbrev Outbound := List (NodeId × RpcMessage)

structure RaftNode (S : Type) where
  raft : Raft
  storage : S
  applied : List Command

namespace RaftNode
variable {S : Type} [RaftStorage S]

def openNode (config : RaftConfig) (storage : S) (draw : Nat) : Except StorageError (RaftNode S) := do
  let hard ← RaftStorage.loadHardState storage
  let log ← RaftStorage.loadLog storage
  .ok ⟨Raft.new config hard log draw,storage,[]⟩

def stored (n : RaftNode S) (out : Fallible S) (sent : Outbound) :
    RaftNode S × Except Error Outbound :=
  ({n with storage := out.1},match out.2 with
    | .ok _ => .ok sent
    | .error e => .error (.storage e))

def restoreLog (n : RaftNode S) (snap : Snapshot) : RaftNode S :=
  {n with raft := n.raft.restoreLog snap.index snap.term}

def execOne (n : RaftNode S) : Action → RaftNode S × Except Error Outbound
  | .persistHardState => n.stored (RaftStorage.saveHardState n.storage n.raft.hard) []
  | .persistLog fromIndex entries => n.stored (RaftStorage.append n.storage fromIndex entries) []
  | .apply cmds => ({n with applied := n.applied ++ cmds},.ok [])
  | .snapshot snap =>
      let out := RaftStorage.saveSnapshot n.storage snap
      match out.2 with
      | .ok _ => (n.restoreLog snap).stored out []
      | .error _ => n.stored out []
  | .send target msg => (n,.ok [(target,msg)])

def execLoop (n : RaftNode S) (outbound : Outbound) : List Action → RaftNode S × Except Error Outbound
  | [] => n.stored (RaftStorage.sync n.storage) outbound
  | action :: rest =>
      let done := n.execOne action
      match done.2 with
      | .ok sent => execLoop done.1 (outbound ++ sent) rest
      | .error e => (done.1,.error e)

def exec (n : RaftNode S) (actions : List Action) : RaftNode S × Except Error Outbound :=
  n.execLoop [] actions

section
variable [Bincode]

def dispatch (r : Raft) (sender : NodeId) (msg : RpcMessage) (draw : Nat) :
    Raft × Option RpcMessage × List Action :=
  match msg with
  | .requestVoteResp resp =>
      let out := r.stepVoteResponse sender resp draw
      (out.1,none,out.2)
  | .appendEntriesResp resp =>
      let out := r.stepAppendResponse sender resp draw
      (out.1,none,out.2)
  | other => r.step sender other draw

def step (n : RaftNode S) (sender : NodeId) (msg : RpcMessage) (draw : Nat) :
    RaftNode S × Except Error (Option RpcMessage × Outbound) :=
  let out := dispatch n.raft sender msg draw
  let done := {n with raft := out.1}.exec out.2.2
  (done.1,done.2.map (fun outbound => (out.2.1,outbound)))

end

def tickMs (n : RaftNode S) (ms draw : Nat) : RaftNode S × Except Error Outbound :=
  let out := n.raft.tick ms draw
  {n with raft := out.1}.exec out.2

/- The three leader calls: a refused call returns the error and changes nothing. -/
def execResult (n : RaftNode S) : Except Error (Raft × List Action) →
    RaftNode S × Except Error Outbound
  | .ok (raft,actions) => {n with raft := raft}.exec actions
  | .error e => (n,.error e)

def propose (n : RaftNode S) (cmd : Command) : RaftNode S × Except Error Outbound :=
  n.execResult (n.raft.propose cmd)

def readIndex (n : RaftNode S) (readId : Nat) : RaftNode S × Except Error Outbound :=
  n.execResult (n.raft.readIndex readId)

def proposeConfChange [Bincode] (n : RaftNode S) (cc : ConfChange) :
    RaftNode S × Except Error Outbound :=
  n.execResult (n.raft.proposeConfChange cc)

end RaftNode

abbrev MemNode := RaftNode MemStorage

end NoeDB.RaftRuntime
