import NoeDB.RaftTypes

/-! The core Raft state machine (raft_core.rs). A method of the source takes the
state and returns the new state with the actions for the runtime to execute, in
the order in which the source pushes them. `draw` is the random number behind an
election timeout; a call that resets the timer twice keeps the last reset. -/
namespace NoeDB.RaftCore
open RaftTypes

inductive Action where
  | persistHardState
  | persistLog (fromIndex : Nat) (entries : List LogEntry)
  | send (target : NodeId) (msg : RpcMessage)
  | apply (cmds : List Command)
  | snapshot (snap : Snapshot)
  deriving DecidableEq, Repr

inductive RaftError (ε : Type) where
  | storage (e : ε)
  | internal (message : String)
  deriving DecidableEq, Repr

/- The progress map is only ever looked up, overwritten and cleared, and the vote
set is only extended, counted and cleared. -/
structure Raft where
  config : RaftConfig
  hard : HardState
  soft : SoftState
  log : RaftLog
  progress : NodeId → Option Progress
  votes : Finset NodeId
  electionRemainingMs : Nat
  heartbeatRemainingMs : Nat
  pendingReads : List (Nat × Nat)
  jointConfig : Option JointConfig
  compactThreshold : Nat

namespace Raft

def new (config : RaftConfig) (hard : HardState) (log : RaftLog) (draw : Nat) : Raft where
  config := config
  hard := hard
  soft := {}
  log := log
  progress := fun _ => none
  votes := ∅
  electionRemainingMs := config.electionTimeout draw
  heartbeatRemainingMs := 0
  pendingReads := []
  jointConfig := none
  compactThreshold := 64

def commitIndex (r : Raft) : Nat := r.hard.commitIndex
def role (r : Raft) : Role := r.soft.role
def term (r : Raft) : Nat := r.hard.currentTerm

def matched (r : Raft) (index : Nat) (peer : NodeId) : Bool :=
  match r.progress peer with
  | some p => index ≤ p.matchIndex
  | none => false

def replicas (r : Raft) (index : Nat) (peers : List NodeId) : Nat :=
  peers.foldl (fun count peer =>
    if peer = r.config.id then count
    else if r.matched index peer then count + 1 else count) 1

def hasQuorumForIndex (r : Raft) (index : Nat) : Bool :=
  match r.jointConfig with
  | some joint =>
      r.replicas index joint.outgoing ≥ joint.outgoingQuorum &&
        r.replicas index joint.incoming ≥ joint.incomingQuorum
  | none => r.replicas index r.config.voters ≥ r.config.quorum

def resetElectionTimer (r : Raft) (draw : Nat) : Raft :=
  {r with electionRemainingMs := r.config.electionTimeout draw}

def logIsUpToDate (r : Raft) (lastIndex lastTerm : Nat) : Bool :=
  let myLast := r.log.lastIndex
  let myTerm := r.log.termAt myLast
  lastTerm > myTerm || (lastTerm = myTerm && lastIndex ≥ myLast)

def nextFor (r : Raft) (peer : NodeId) : Nat :=
  match r.progress peer with
  | some p => p.nextIndex
  | none => 1

def snapshotReq (r : Raft) : InstallSnapshotReq :=
  let snap : Snapshot := ⟨r.hard.lastApplied,r.log.termAt r.hard.lastApplied,[]⟩
  { term := r.hard.currentTerm
    leaderId := r.config.id
    lastIncludedIndex := snap.index
    lastIncludedTerm := snap.term
    data := snap.data
    offset := 0
    done := true }

def appendReq (r : Raft) (next : Nat) : AppendEntriesReq :=
  let prev := indexPrev next
  { term := r.hard.currentTerm
    leaderId := r.config.id
    prevLogIndex := prev
    prevLogTerm := r.log.termAt prev
    entries := (r.log.sliceFrom next).take r.config.maxAppendBatch
    leaderCommit := r.hard.commitIndex }

def appendToPeer (r : Raft) (peer : NodeId) : List Action :=
  if r.soft.role ≠ .leader then []
  else
    let next := r.nextFor peer
    if next = 1 ∧ r.log.lastIndex > r.compactThreshold then
      [.send peer (.installSnapshot r.snapshotReq)]
    else [.send peer (.appendEntries (r.appendReq next))]

def broadcastAppend (r : Raft) : List Action :=
  if r.soft.role ≠ .leader then []
  else
    let peers := r.config.voters.filter (fun p => p ≠ r.config.id)
    peers.flatMap r.appendToPeer

def freshProgress (id : NodeId) (voters : List NodeId) (next : Nat) : NodeId → Option Progress :=
  voters.foldl (fun progress peer =>
    if peer ≠ id then Function.update progress peer (some ⟨next,0⟩) else progress) (fun _ => none)

def becomeFollower (r : Raft) (term : Nat) (leader : Option NodeId) (draw : Nat) :
    Raft × List Action :=
  let hard := if term > r.hard.currentTerm then
      {r.hard with currentTerm := term, votedFor := none}
    else r.hard
  let r := {r with
    soft := ⟨.follower,leader⟩
    votes := ∅
    progress := fun _ => none
    pendingReads := []
    hard := hard}
  (r.resetElectionTimer draw,[.persistHardState])

def becomeLeader (r : Raft) : Raft × List Action :=
  let next := indexNext r.log.lastIndex
  let r := {r with
    soft := ⟨.leader,some r.config.id⟩
    progress := freshProgress r.config.id r.config.voters next
    heartbeatRemainingMs := 0}
  (r,r.broadcastAppend)

def voteRequests (r : Raft) (term last lastTerm : Nat) : List Action :=
  (r.config.voters.filter (fun p => p ≠ r.config.id)).map (fun peer =>
    .send peer (.requestVote ⟨term,r.config.id,last,lastTerm⟩))

def becomeCandidate (r : Raft) (draw : Nat) : Raft × List Action :=
  let term := termNext r.hard.currentTerm
  let r := {r with
    hard := {r.hard with currentTerm := term, votedFor := some r.config.id}
    soft := ⟨.candidate,none⟩
    votes := {r.config.id}}
  let r := r.resetElectionTimer draw
  let last := r.log.lastIndex
  let lastTerm := r.log.termAt last
  let actions := .persistHardState :: r.voteRequests term last lastTerm
  if r.votes.card ≥ r.config.quorum then (r.becomeLeader.1,actions ++ r.becomeLeader.2)
  else (r,actions)

def startElection (r : Raft) (draw : Nat) : Raft × List Action :=
  if r.soft.role = .leader then (r,[]) else r.becomeCandidate draw

def tick (r : Raft) (elapsedMs draw : Nat) : Raft × List Action :=
  if r.soft.role = .leader then
    if r.heartbeatRemainingMs ≤ elapsedMs then
      let r := {r with heartbeatRemainingMs := r.config.heartbeatInterval}
      (r,r.broadcastAppend)
    else ({r with heartbeatRemainingMs := r.heartbeatRemainingMs - elapsedMs},[])
  else if r.electionRemainingMs ≤ elapsedMs then r.startElection draw
  else ({r with electionRemainingMs := r.electionRemainingMs - elapsedMs},[])

def rebuildProgress (r : Raft) : Raft :=
  if r.soft.role ≠ .leader then r
  else
    let next := indexNext r.log.lastIndex
    {r with progress := freshProgress r.config.id r.config.voters next}

def addVoter (r : Raft) (id : NodeId) : Raft :=
  let joint := jointAddVoter r.jointConfig r.config.voters id
  let final := jointFinalize joint r.config.voters
  {r with jointConfig := final.1, config := {r.config with voters := final.2}}

def removeVoter (r : Raft) (id : NodeId) : Raft :=
  {r with
    config := {r.config with voters := r.config.voters.filter (fun v => v ≠ id)}
    jointConfig := none}

def applyConfChange (r : Raft) : ConfChange → Raft × List Action
  | .addVoter id =>
      if id ∈ r.config.voters then (r,[.persistHardState])
      else ((r.addVoter id).rebuildProgress,[.persistHardState])
  | .removeVoter id =>
      if r.config.voters.length > 1 then
        ((r.removeVoter id).rebuildProgress,[.persistHardState])
      else (r,[.persistHardState])

def pushRead (r : Raft) (readId index : Nat) : Raft :=
  {r with pendingReads := r.pendingReads ++ [(readId,index)]}

def tryConfirmReads (r : Raft) : Raft × List Action :=
  ({r with pendingReads := r.pendingReads.filter (fun p => p.2 > r.hard.commitIndex)},[])

section
variable [Bincode]

def applyEntry (r : Raft) (cmds : List Command) (actions : List Action) :
    Option LogEntry → Raft × List Command × List Action
  | none => (r,cmds,actions)
  | some e =>
      match decodeConfChange e.command with
      | some cc => ((r.applyConfChange cc).1,cmds,actions ++ (r.applyConfChange cc).2)
      | none => if e.command ≠ [] then (r,cmds ++ [e.command],actions) else (r,cmds,actions)

def setApplied (r : Raft) (index : Nat) : Raft := {r with hard := {r.hard with lastApplied := index}}

def applyNext (r : Raft) (cmds : List Command) (actions : List Action) :
    Raft × List Command × List Action :=
  let next := indexNext r.hard.lastApplied
  let out := r.applyEntry cmds actions (r.log.get next)
  (out.1.setApplied next,out.2)

def applyLoop : Nat → Raft → List Command → List Action → Raft × List Command × List Action
  | 0,r,cmds,actions => (r,cmds,actions)
  | rounds+1,r,cmds,actions =>
      let out := r.applyNext cmds actions
      applyLoop rounds out.1 out.2.1 out.2.2

def applyActions (cmds : List Command) (actions : List Action) : List Action :=
  let actions := if cmds ≠ [] then actions ++ [.apply cmds] else actions
  if actions ≠ [] then actions ++ [.persistHardState] else actions

def applyCommitted (r : Raft) : Raft × List Action :=
  let out := applyLoop (r.hard.commitIndex - r.hard.lastApplied) r [] []
  (out.1,applyActions out.2.1 out.2.2)

def setCommit (r : Raft) (index : Nat) : Raft := {r with hard := {r.hard with commitIndex := index}}

/- The body of the commit loop at one index; the term is read before the loop. -/
def commitAt (term : Nat) (acc : Raft × List Action) (index : Nat) : Raft × List Action :=
  if acc.1.log.termAt index ≠ term then acc
  else if acc.1.hasQuorumForIndex index then
    (acc.1.setCommit index,acc.2 ++ [.persistHardState])
  else acc

def advanceLoop (r : Raft) : Raft × List Action :=
  (List.range' (r.hard.commitIndex + 1) (r.log.lastIndex - r.hard.commitIndex)).foldl
    (commitAt r.hard.currentTerm) (r,[])

def compacts (r : Raft) : Bool :=
  r.soft.role = .leader && r.log.lastIndex - r.hard.lastApplied > r.compactThreshold

def tryAdvanceCommit (r : Raft) : Raft × List Action :=
  let advanced := r.advanceLoop
  let applied := advanced.1.applyCommitted
  let confirmed := applied.1.tryConfirmReads
  let r := confirmed.1
  let actions := advanced.2 ++ applied.2 ++ confirmed.2
  if r.compacts then
    (r,actions ++ [.snapshot ⟨r.hard.lastApplied,r.log.termAt r.hard.lastApplied,[]⟩])
  else (r,actions)

def observeTerm (r : Raft) (term : Nat) (draw : Nat) : Raft × List Action :=
  if term > r.hard.currentTerm then r.becomeFollower term none draw else (r,[])

def castVote (r : Raft) (candidate : NodeId) (draw : Nat) : Raft :=
  {r with hard := {r.hard with votedFor := some candidate}}.resetElectionTimer draw

def mayVote (r : Raft) (req : RequestVoteReq) : Bool :=
  (r.hard.votedFor = none || r.hard.votedFor = some req.candidateId) &&
    r.logIsUpToDate req.lastLogIndex req.lastLogTerm

def handleRequestVote (r : Raft) (_ : NodeId) (req : RequestVoteReq) (draw : Nat) :
    Raft × Option RpcMessage × List Action :=
  if req.term < r.hard.currentTerm then
    (r,some (.requestVoteResp ⟨r.hard.currentTerm,false⟩),[])
  else
    let seen := r.observeTerm req.term draw
    let r := seen.1
    if r.mayVote req then
      (r.castVote req.candidateId draw,some (.requestVoteResp ⟨r.hard.currentTerm,true⟩),
        seen.2 ++ [.persistHardState])
    else (r,some (.requestVoteResp ⟨r.hard.currentTerm,false⟩),seen.2)

def storeEntries (r : Raft) (req : AppendEntriesReq) : Raft × List Action :=
  if req.entries ≠ [] then
    let fromIdx := indexNext req.prevLogIndex
    let log := r.log.truncateFrom req.prevLogIndex
    ({r with log := (log.append req.entries).1},[.persistLog fromIdx req.entries])
  else (r,[])

def followCommit (r : Raft) (req : AppendEntriesReq) : Raft × List Action :=
  if req.leaderCommit > r.hard.commitIndex then
    let commit := min req.leaderCommit r.log.lastIndex
    if r.log.termAt commit = req.term then
      let applied := (r.setCommit commit).applyCommitted
      (applied.1,[.persistHardState] ++ applied.2)
    else (r,[])
  else (r,[])

/- `handle_append_entries` past the term checks: consistency check, log, commit. -/
def replicate (r : Raft) (req : AppendEntriesReq) (actions : List Action) :
    Raft × Option RpcMessage × List Action :=
  if r.log.termAt req.prevLogIndex ≠ req.prevLogTerm then
    (r,some (.appendEntriesResp ⟨r.hard.currentTerm,false,r.log.lastIndex⟩),actions)
  else
    let stored := r.storeEntries req
    let followed := stored.1.followCommit req
    let r := followed.1
    (r,some (.appendEntriesResp ⟨r.hard.currentTerm,true,r.log.lastIndex⟩),
      actions ++ stored.2 ++ followed.2)

def acceptLeader (r : Raft) (req : AppendEntriesReq) (draw : Nat) : Raft × List Action :=
  if req.term > r.hard.currentTerm ∨
      (req.term = r.hard.currentTerm ∧ r.soft.role = .leader ∧ req.leaderId ≠ r.config.id) then
    r.becomeFollower req.term (some req.leaderId) draw
  else
    ({r with soft := {r.soft with leaderId := some req.leaderId}}.resetElectionTimer draw,[])

def handleAppendEntries (r : Raft) (_ : NodeId) (req : AppendEntriesReq) (draw : Nat) :
    Raft × Option RpcMessage × List Action :=
  if req.term < r.hard.currentTerm then
    (r,some (.appendEntriesResp ⟨r.hard.currentTerm,false,r.log.lastIndex⟩),[])
  else
    let accepted := r.acceptLeader req draw
    accepted.1.replicate req accepted.2

def restoreLog (r : Raft) (index term : Nat) : Raft := {r with log := r.log.restore index term []}

def finishSnapshot (r : Raft) (req : InstallSnapshotReq) : Raft × List Action :=
  if req.done then
    let snap : Snapshot := ⟨req.lastIncludedIndex,req.lastIncludedTerm,req.data⟩
    ((r.setCommit req.lastIncludedIndex).setApplied req.lastIncludedIndex,
      [.snapshot snap,.persistHardState])
  else (r,[])

def handleInstallSnapshot (r : Raft) (_ : NodeId) (req : InstallSnapshotReq) (draw : Nat) :
    Raft × Option RpcMessage × List Action :=
  if req.term ≥ r.hard.currentTerm then
    let followed := r.becomeFollower req.term (some req.leaderId) draw
    let restored := followed.1.restoreLog req.lastIncludedIndex req.lastIncludedTerm
    let finished := restored.finishSnapshot req
    (finished.1,some (.installSnapshotResp ⟨finished.1.hard.currentTerm⟩),followed.2 ++ finished.2)
  else (r,some (.installSnapshotResp ⟨r.hard.currentTerm⟩),[])

def handleReadIndex (r : Raft) (_ : NodeId) (req : ReadIndexReq) :
    Raft × Option RpcMessage × List Action :=
  if r.soft.role ≠ .leader ∨ req.term ≠ r.hard.currentTerm then (r,none,[])
  else
    let readIndex := r.log.lastIndex
    let r := r.pushRead req.readId readIndex
    let confirmed := r.tryConfirmReads
    (confirmed.1,some (.readIndexResp ⟨r.hard.currentTerm,readIndex,req.readId⟩),
      r.broadcastAppend ++ confirmed.2)

def step (r : Raft) (sender : NodeId) (msg : RpcMessage) (draw : Nat) :
    Raft × Option RpcMessage × List Action :=
  match msg with
  | .requestVote req => r.handleRequestVote sender req draw
  | .appendEntries req => r.handleAppendEntries sender req draw
  | .installSnapshot req => r.handleInstallSnapshot sender req draw
  | .readIndex req => r.handleReadIndex sender req
  | other => (r,none,[.send sender other])

def countVote (r : Raft) (sender : NodeId) (resp : RequestVoteResp) : Raft :=
  if resp.voteGranted then {r with votes := insert sender r.votes} else r

def stepVoteResponse (r : Raft) (sender : NodeId) (resp : RequestVoteResp) (draw : Nat) :
    Raft × List Action :=
  if resp.term > r.hard.currentTerm then r.becomeFollower resp.term none draw
  else if r.soft.role ≠ .candidate ∨ resp.term ≠ r.hard.currentTerm then (r,[])
  else
    let r := r.countVote sender resp
    if r.votes.card ≥ r.config.quorum then r.becomeLeader else (r,[])

def ackProgress (p : Progress) (resp : AppendEntriesResp) : Progress :=
  if resp.success then
    {p with matchIndex := resp.lastLogIndex, nextIndex := indexNext resp.lastLogIndex}
  else {p with nextIndex := max (p.nextIndex - 1) 1}

def recordAck (r : Raft) (sender : NodeId) (p : Progress) (resp : AppendEntriesResp) : Raft :=
  {r with progress := Function.update r.progress sender (some (ackProgress p resp))}

def stepAppendResponse (r : Raft) (sender : NodeId) (resp : AppendEntriesResp) (draw : Nat) :
    Raft × List Action :=
  if resp.term > r.hard.currentTerm then r.becomeFollower resp.term none draw
  else if r.soft.role ≠ .leader then (r,[])
  else
    match r.progress sender with
    | none => (r,[])
    | some p =>
        let advanced := (r.recordAck sender p resp).tryAdvanceCommit
        let r := advanced.1
        let next := match r.progress sender with
          | some p => p.nextIndex
          | none => 0
        if next ≤ r.log.lastIndex then (r,advanced.2 ++ r.appendToPeer sender)
        else (r,advanced.2)

end

def appendOwn (r : Raft) (cmd : Command) : Raft :=
  {r with log := (r.log.append [⟨r.hard.currentTerm,cmd⟩]).1}

def persistOwn (r : Raft) (cmd : Command) : Action :=
  .persistLog (indexNext r.log.lastIndex) [⟨r.hard.currentTerm,cmd⟩]

def propose {ε : Type} (r : Raft) (cmd : Command) : Except (RaftError ε) (Raft × List Action) :=
  if r.soft.role ≠ .leader then .error (.internal "not leader")
  else
    let appended := r.appendOwn cmd
    .ok (appended,[r.persistOwn cmd] ++ appended.broadcastAppend)

def readIndex {ε : Type} (r : Raft) (readId : Nat) : Except (RaftError ε) (Raft × List Action) :=
  if r.soft.role ≠ .leader then .error (.internal "not leader")
  else
    let appended := r.appendOwn []
    let idx := appended.log.lastIndex
    let pending := appended.pushRead readId idx
    .ok (pending,[r.persistOwn []] ++ pending.broadcastAppend)

def proposeConfChange {ε : Type} [Bincode] (r : Raft) (cc : ConfChange) :
    Except (RaftError ε) (Raft × List Action) :=
  if r.soft.role ≠ .leader then .error (.internal "not leader")
  else r.propose (encodeConfChange cc)

end Raft
end NoeDB.RaftCore
