import NoeDB.Execution
import NoeDB.RaftRuntime

/-! A cluster of Raft peers and the network between them. The network only grows:
a message that was sent once can be delivered any number of times, at any later
moment and in any order, or never. Read-index requests come from outside. -/
namespace NoeDB.RaftCluster
open RaftTypes RaftRuntime

structure Envelope where
  sender : NodeId
  target : NodeId
  msg : RpcMessage
  deriving DecidableEq, Repr

structure Cluster (S : Type) where
  nodes : NodeId → Option (RaftNode S)
  net : List Envelope

inductive Event where
  | tick (id : NodeId) (ms draw : Nat)
  | deliver (env : Envelope) (draw : Nat)
  | propose (id : NodeId) (cmd : Command)
  | readIndex (id : NodeId) (readId : Nat)
  | proposeConfChange (id : NodeId) (cc : ConfChange)
  | request (client target : NodeId) (req : ReadIndexReq)
  | crash (id : NodeId) (draw : Nat)
  deriving DecidableEq, Repr

def posted (id : NodeId) (out : Outbound) : List Envelope := out.map (fun m => ⟨id,m.1,m.2⟩)

/- What a call gives to the network: nothing when it returned an error. -/
def delivered (out : Except Error Outbound) : Outbound :=
  match out with
  | .ok sent => sent
  | .error _ => []

def answered (sender : NodeId) (out : Except Error (Option RpcMessage × Outbound)) : Outbound :=
  match out with
  | .ok (some resp,sent) => (sender,resp) :: sent
  | .ok (none,sent) => sent
  | .error _ => []

namespace Cluster

def put {S : Type} (c : Cluster S) (id : NodeId) (n : RaftNode S) (sent : Outbound) : Cluster S :=
  ⟨Function.update c.nodes id (some n),c.net ++ posted id sent⟩

section
variable {S : Type} [RaftStorage S] [Bincode]

def step (c : Cluster S) : Event → Option (Cluster S)
  | .tick id ms draw => do
      let n ← c.nodes id
      let out := n.tickMs ms draw
      some (c.put id out.1 (delivered out.2))
  | .deliver env draw =>
      if env ∈ c.net then do
        let n ← c.nodes env.target
        let out := n.step env.sender env.msg draw
        some (c.put env.target out.1 (answered env.sender out.2))
      else none
  | .propose id cmd => do
      let n ← c.nodes id
      let out := n.propose cmd
      some (c.put id out.1 (delivered out.2))
  | .readIndex id readId => do
      let n ← c.nodes id
      let out := n.readIndex readId
      some (c.put id out.1 (delivered out.2))
  | .proposeConfChange id cc => do
      let n ← c.nodes id
      let out := n.proposeConfChange cc
      some (c.put id out.1 (delivered out.2))
  | .request client target req => some {c with net := c.net ++ [⟨client,target,.readIndex req⟩]}
  | .crash id draw => do
      let n ← c.nodes id
      match RaftNode.openNode n.raft.config (RaftStorage.reopen n.storage) draw with
      | .ok n => some (c.put id n [])
      | .error _ => none

def run (c : Cluster S) (events : List Event) : Option (Cluster S) := Execution.run step c events

end

end Cluster

structure Tuning where
  electionTimeoutMin : Nat
  electionTimeoutMax : Nat
  heartbeatInterval : Nat
  maxAppendBatch : Nat
  deriving DecidableEq, Repr

def Tuning.config (t : Tuning) (id : NodeId) (voters : List NodeId) : RaftConfig :=
  ⟨id,voters,t.electionTimeoutMin,t.electionTimeoutMax,t.heartbeatInterval,t.maxAppendBatch⟩

def Cluster.boot {S : Type} [RaftStorage S] (ids voters : List NodeId) (tuning : NodeId → Tuning)
    (storage : NodeId → S) (draw : NodeId → Nat) : Cluster S where
  nodes := fun id =>
    if id ∈ ids then
      match RaftNode.openNode ((tuning id).config id voters) (storage id) (draw id) with
      | .ok n => some n
      | .error _ => none
    else none
  net := []

end NoeDB.RaftCluster
