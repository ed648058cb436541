import Mathlib.Algebra.Ring.Nat
import Mathlib.Data.Finset.Card
import Mathlib.Data.List.Basic
import Mathlib.Logic.Function.Basic

/-! Identifiers, log, durable state, RPC messages, timing and membership records
of the Raft crate (types.rs, log.rs, state.rs, rpc.rs, config.rs, membership.rs).
Terms and log indices are plain naturals. A log index is below the length of a
vector, so `LogIndex::next` never saturates and is addition here; `Term::next`
keeps its saturation. -/
namespace NoeDB.RaftTypes

abbrev NodeId := Nat
abbrev Command := List UInt8

def u64Max : Nat := 2^64 - 1

def termNext (t : Nat) : Nat := min (t + 1) u64Max

def indexNext (i : Nat) : Nat := i + 1
def indexPrev (i : Nat) : Nat := i - 1

theorem termNextBelow (h : t < u64Max) : termNext t = t + 1 := by
  unfold termNext
  omega

inductive Role where
  | follower
  | candidate
  | leader
  deriving DecidableEq, Repr

structure LogEntry where
  term : Nat
  command : Command
  deriving DecidableEq, Repr

inductive ConfChange where
  | addVoter (id : NodeId)
  | removeVoter (id : NodeId)
  deriving DecidableEq, Repr

/- `entries[0]` is the sentinel, so the list is never empty and an index is a
list position. -/
structure RaftLog where
  entries : List LogEntry
  nonempty : entries ≠ []
  deriving DecidableEq, Repr

namespace RaftLog

def new : RaftLog := ⟨[⟨0,[]⟩],by simp⟩

def lastIndex (l : RaftLog) : Nat := l.entries.length - 1

def termAt (l : RaftLog) (index : Nat) : Nat :=
  match l.entries[index]? with
  | some e => e.term
  | none => 0

def get (l : RaftLog) (index : Nat) : Option LogEntry := l.entries[index]?

def append (l : RaftLog) (entries : List LogEntry) : RaftLog × Nat :=
  let start := indexNext l.lastIndex
  (⟨l.entries ++ entries,by simp [l.nonempty]⟩,start)

def truncateFrom (l : RaftLog) (index : Nat) : RaftLog :=
  let keep := index + 1
  if keep < l.entries.length then
    ⟨l.entries.take keep,by simp [keep,l.nonempty]⟩
  else l

def sliceFrom (l : RaftLog) (start : Nat) : List LogEntry :=
  if start ≥ l.entries.length then [] else l.entries.drop start

def resize (entries : List LogEntry) (len : Nat) (filler : LogEntry) : List LogEntry :=
  entries.take len ++ List.replicate (len - entries.length) filler

def setLastTerm (entries : List LogEntry) (term : Nat) : List LogEntry :=
  match entries.getLast? with
  | none => entries
  | some last => entries.dropLast ++ [{last with term := term}]

def restoredEntries (snapshotIndex : Nat) (snapshotTerm : Nat) : List LogEntry :=
  let filler : LogEntry := ⟨snapshotTerm,[]⟩
  let entries := [filler]
  if snapshotIndex > 0 then
    setLastTerm (resize entries (snapshotIndex + 1) filler) snapshotTerm
  else entries

theorem restoredEntriesEq (index term) : restoredEntries index term = List.replicate (index + 1) ⟨term,[]⟩ := by
  unfold restoredEntries
  by_cases h : index > 0
  · have shape : resize [(⟨term,[]⟩ : LogEntry)] (index + 1) ⟨term,[]⟩ = List.replicate (index + 1) ⟨term,[]⟩ := by
      simp [resize,List.replicate_succ]
    simp only [if_pos h,shape]
    simp [setLastTerm,List.replicate_succ']
  · have zero : index = 0 := by omega
    subst zero
    simp

def restore (_ : RaftLog) (snapshotIndex : Nat) (snapshotTerm : Nat)
    (suffix : List LogEntry) : RaftLog :=
  ⟨restoredEntries snapshotIndex snapshotTerm ++ suffix,by simp [restoredEntriesEq]⟩

theorem lengthPos (l : RaftLog) : 0 < l.entries.length := List.length_pos_iff.mpr l.nonempty

@[simp] theorem lastIndexSucc (l : RaftLog) : l.lastIndex + 1 = l.entries.length := by
  have := l.lengthPos
  unfold lastIndex
  omega

@[simp] theorem appendEntries (l : RaftLog) (es) : (l.append es).1.entries = l.entries ++ es := rfl

@[simp] theorem truncateEntries (l : RaftLog) (index) :
    (l.truncateFrom index).entries = l.entries.take (index + 1) := by
  unfold truncateFrom
  by_cases h : index + 1 < l.entries.length
  · simp [h]
  · simp only [h,if_false]
    rw [List.take_of_length_le (by omega)]

@[simp] theorem sliceEntries (l : RaftLog) (start) : l.sliceFrom start = l.entries.drop start := by
  unfold sliceFrom
  split
  · rename_i beyond
    exact (List.drop_of_length_le beyond).symm
  · rfl

@[simp] theorem restoreEntries (l : RaftLog) (index term) :
    (l.restore index term []).entries = List.replicate (index + 1) ⟨term,[]⟩ := by
  simp [restore,restoredEntriesEq]

theorem termAtOf {l : RaftLog} (found : l.entries[index]? = some e) : l.termAt index = e.term := by
  simp [termAt,found]

theorem termAtBeyond {l : RaftLog} (beyond : l.entries.length ≤ index) : l.termAt index = 0 := by
  simp [termAt,List.getElem?_eq_none beyond]

theorem ext {a b : RaftLog} (same : a.entries = b.entries) : a = b := by
  cases a
  cases b
  simpa using same

end RaftLog

structure HardState where
  currentTerm : Nat := 0
  votedFor : Option NodeId := none
  commitIndex : Nat := 0
  lastApplied : Nat := 0
  deriving DecidableEq, Repr

structure SoftState where
  role : Role := .follower
  leaderId : Option NodeId := none
  deriving DecidableEq, Repr

structure Progress where
  nextIndex : Nat := 0
  matchIndex : Nat := 0
  deriving DecidableEq, Repr

structure Snapshot where
  index : Nat
  term : Nat
  data : List UInt8
  deriving DecidableEq, Repr

structure RequestVoteReq where
  term : Nat
  candidateId : NodeId
  lastLogIndex : Nat
  lastLogTerm : Nat
  deriving DecidableEq, Repr

structure RequestVoteResp where
  term : Nat
  voteGranted : Bool
  deriving DecidableEq, Repr

structure AppendEntriesReq where
  term : Nat
  leaderId : NodeId
  prevLogIndex : Nat
  prevLogTerm : Nat
  entries : List LogEntry
  leaderCommit : Nat
  deriving DecidableEq, Repr

structure AppendEntriesResp where
  term : Nat
  success : Bool
  lastLogIndex : Nat
  deriving DecidableEq, Repr

structure InstallSnapshotReq where
  term : Nat
  leaderId : NodeId
  lastIncludedIndex : Nat
  lastIncludedTerm : Nat
  data : List UInt8
  offset : Nat
  done : Bool
  deriving DecidableEq, Repr

structure InstallSnapshotResp where
  term : Nat
  deriving DecidableEq, Repr

structure ReadIndexReq where
  term : Nat
  leaderId : NodeId
  readId : Nat
  deriving DecidableEq, Repr

structure ReadIndexResp where
  term : Nat
  readIndex : Nat
  readId : Nat
  deriving DecidableEq, Repr

inductive RpcMessage where
  | requestVote (req : RequestVoteReq)
  | requestVoteResp (resp : RequestVoteResp)
  | appendEntries (req : AppendEntriesReq)
  | appendEntriesResp (resp : AppendEntriesResp)
  | installSnapshot (req : InstallSnapshotReq)
  | installSnapshotResp (resp : InstallSnapshotResp)
  | readIndex (req : ReadIndexReq)
  | readIndexResp (resp : ReadIndexResp)
  deriving DecidableEq, Repr

/- Durations are whole milliseconds, the only unit the core reads. -/
structure RaftConfig where
  id : NodeId
  voters : List NodeId
  electionTimeoutMin : Nat
  electionTimeoutMax : Nat
  heartbeatInterval : Nat
  maxAppendBatch : Nat
  deriving DecidableEq, Repr

def RaftConfig.quorum (c : RaftConfig) : Nat := c.voters.length / 2 + 1

def RaftConfig.simulation (id : NodeId) (voters : List NodeId) : RaftConfig :=
  let stagger := 80 + id * 40
  ⟨id,voters,stagger,stagger,25,64⟩

/- `draw` stands for the number the thread's generator returns; every value of
the closed range is reached by some draw. -/
def RaftConfig.electionTimeout (c : RaftConfig) (draw : Nat) : Nat :=
  let lo := c.electionTimeoutMin
  let hi := c.electionTimeoutMax
  if lo = hi then lo
  else
    let hi := max hi lo
    lo + draw % (hi - lo + 1)

/- The bytes of `NOEDB_CONF`. -/
def confMagic : List UInt8 := [78,79,69,68,66,95,67,79,78,70]

structure JointConfig where
  outgoing : List NodeId
  incoming : List NodeId
  deriving DecidableEq, Repr

def JointConfig.outgoingQuorum (j : JointConfig) : Nat := j.outgoing.length / 2 + 1
def JointConfig.incomingQuorum (j : JointConfig) : Nat := j.incoming.length / 2 + 1

/- The serializer is an external crate: a parameter of the whole model. -/
class Bincode where
  serialize : ConfChange → List UInt8
  deserialize : List UInt8 → Option ConfChange

def leBytes : Nat → Nat → List UInt8
  | 0,_ => []
  | width+1,n => UInt8.ofNat (n % 256) :: leBytes width (n / 256)

def leValue : List UInt8 → Nat
  | [] => 0
  | b :: rest => b.toNat + 256 * leValue rest

/- The crate's default: a four-byte variant number, an eight-byte id, little
endian, and bytes after the value ignored. -/
instance fixintBincode : Bincode where
  serialize
    | .addVoter id => leBytes 4 0 ++ leBytes 8 id
    | .removeVoter id => leBytes 4 1 ++ leBytes 8 id
  deserialize bytes :=
    if bytes.length < 12 then none
    else
      let id := leValue ((bytes.drop 4).take 8)
      match leValue (bytes.take 4) with
      | 0 => some (.addVoter id)
      | 1 => some (.removeVoter id)
      | _ => none

def encodeConfChange [Bincode] (cc : ConfChange) : Command := confMagic ++ Bincode.serialize cc

def decodeConfChange [Bincode] (cmd : Command) : Option ConfChange :=
  if !confMagic.isPrefixOf cmd then none
  else Bincode.deserialize (cmd.drop confMagic.length)

theorem decodeEmpty [Bincode] : decodeConfChange [] = none := by
  simp [decodeConfChange,confMagic]

def jointAddVoter (joint : Option JointConfig) (voters : List NodeId) (id : NodeId) :
    Option JointConfig :=
  match joint with
  | some j => if id ∈ j.incoming then some j else some {j with incoming := j.incoming ++ [id]}
  | none =>
      let outgoing := voters
      let incoming := if id ∈ voters then voters else voters ++ [id]
      some ⟨outgoing,incoming⟩

def jointFinalize (joint : Option JointConfig) (voters : List NodeId) :
    Option JointConfig × List NodeId :=
  match joint with
  | some j => (none,j.incoming)
  | none => (none,voters)

end NoeDB.RaftTypes
