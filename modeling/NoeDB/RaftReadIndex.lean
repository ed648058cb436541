import NoeDB.RaftSafety

/-! Read indices. A leader answers a read-index request at once with its last index. It
covers what was committed before, as long as no newer leader had been elected when the
read began; a leader that has been replaced does not notice. -/
namespace NoeDB.RaftReadIndex
open RaftTypes RaftCore RaftRuntime RaftCluster RaftPlain RaftSteps Option Cluster MemStorage
open RaftPersistence RaftProgress RaftElection RaftTruth
open RaftSimulation RaftSafety Replication

section
variable [Bincode]

def answerOf (c : Cluster MemStorage) (env : Envelope) (draw : Nat) : Option RpcMessage := do
  let n ← c.nodes env.target
  match (n.step env.sender env.msg draw).2 with
  | .ok (answer,_) => answer
  | .error _ => none

theorem readAnswer (answered : answerOf c ⟨client,target,.readIndex req⟩ draw = some (.readIndexResp resp)) :
    ∃ n, c.nodes target = some n ∧ n.raft.soft.role = .leader ∧
      n.raft.hard.currentTerm = req.term ∧ resp.readIndex = n.raft.log.lastIndex := by
  obtain ⟨n,found,last⟩ := bind_eq_some_iff.mp answered
  refine ⟨n,found,?_⟩
  have sent := (memExec {n with raft := (RaftNode.dispatch n.raft client (.readIndex req) draw).1}
    (RaftNode.dispatch n.raft client (.readIndex req) draw).2.2).1
  simp only [RaftNode.step,sent,Except.map] at last
  simp only [RaftNode.dispatch,Raft.step,Raft.handleReadIndex] at last
  split at last
  · cases last
  · rename_i asked
    cases some.inj last
    rw [not_or,not_not,not_not] at asked
    exact ⟨asked.1,asked.2.symm,rfl⟩

end

def NoNewerLeader (ids : List NodeId) (term : Nat) (c : Cluster MemStorage) : Prop :=
  ∀ id ∈ ids, ∀ t ∈ leaderTerm c id, t ≤ term

instance (ids term c) : Decidable (NoNewerLeader ids term c) := by unfold NoNewerLeader; infer_instance

theorem startLed (opened : (start RaftLog.new.entries : Ghost).led t ≠ []) : t ≤ term := by
  by_cases zero : t = 0
  · omega
  · simp only [start,Function.update_of_ne zero] at opened
    exact absurd rfl opened

section
variable [Bincode] {voters ids : List NodeId} {c : Cluster MemStorage} {s : Ghost}

theorem simRunLed (inv : Sim voters c s)
    (listed : ∀ {id n}, c.nodes id = some n → id ∈ ids) (old : ∀ {t}, s.led t ≠ [] → t ≤ term)
    (ok : Execution.Admissible step SafeStep c events)
    (current : Execution.Always step (NoNewerLeader ids term) c events) (done : c.run events = some c') :
    ∃ s', Sim voters c' s' ∧ ∀ {t}, s'.led t ≠ [] → t ≤ term := by
  induction events generalizing c s with
  | nil =>
    cases some.inj done
    exact ⟨s,inv,old⟩
  | cons _ _ ih =>
    obtain ⟨next,one,more⟩ := Execution.runCons done
    obtain ⟨_,first⟩ := simStep inv ok.1 one
    have there : ∀ {id n}, next.nodes id = some n → id ∈ ids := by
      intro id n found
      obtain ⟨m,before⟩ := stepNodes one found
      exact listed before
    have after := current.2 next one
    refine ih first.sim there ?_ (ok.2 next one) after more
    intro t opened
    rcases first.led opened with before | ⟨id,leads⟩
    · exact old before
    · obtain ⟨n,found,_⟩ := leaderTermSome leads
      exact Execution.alwaysStart after id (there found) t leads

theorem leaderCovers (inv : Sim voters c s) {id} (found : c.nodes id = some n) (leads : n.raft.soft.role = .leader)
    (settled : Settled LogEntry.term voters s t k) (before : t ≤ n.raft.hard.currentTerm) :
    k ≤ n.raft.log.lastIndex := by
  have written := (inv.logs.nodes found).written leads
  have length := n.raft.log.lastIndexSucc
  have opened : s.led n.raft.hard.currentTerm ≠ [] := by
    rw [written]
    exact n.raft.log.nonempty
  have front := (settled.front inv.sound before opened).length_le
  have inside := settled.length
  rw [List.length_take,written] at front
  omega

theorem bootListed {id} (found : (boot ids voters tuning (fun _ => new) draw).nodes id = some n) :
    id ∈ ids := (bootNode found).1

end

theorem readIndexCovers [Bincode] {ids voters : List NodeId} {tuning : NodeId → Tuning}
    {draw : NodeId → Nat} (peers : ∀ id ∈ ids, id ∈ voters) {before after : List Event}
    {c₁ c₂ : Cluster MemStorage} {client target : NodeId} {req : ReadIndexReq} {resp : ReadIndexResp} {timer : Nat}
    (issued : (Cluster.boot ids voters tuning (fun _ => MemStorage.new) draw).run before = some c₁)
    (current : Execution.Always Cluster.step (NoNewerLeader ids req.term)
      (Cluster.boot ids voters tuning (fun _ => MemStorage.new) draw) before)
    (later : c₁.run (.request client target req :: after) = some c₂)
    (answered : answerOf c₂ ⟨client,target,.readIndex req⟩ timer = some (.readIndexResp resp))
    (ok : Execution.Admissible Cluster.step SafeStep (Cluster.boot ids voters tuning (fun _ => MemStorage.new) draw)
      (before ++ .request client target req :: after)) :
    ∀ id, ∀ n ∈ c₁.nodes id, n.raft.hard.commitIndex ≤ resp.readIndex := by
  obtain ⟨ok₁,ok₂⟩ := Execution.admissibleSplit issued ok
  obtain ⟨_,sim₁,led⟩ := simRunLed (simBoot peers) bootListed startLed ok₁ current issued
  obtain ⟨_,steps,sim₂⟩ := simRun sim₁ ok₂ later
  obtain ⟨m,there,leads,term,last⟩ := readAnswer answered
  intro _ n found
  obtain ⟨t,_,settled,_⟩ := (sim₁.nodes found).committed
  rw [last]
  refine leaderCovers sim₂ there leads (settled.later (stepsLater steps)) ?_
  rw [term]
  exact led settled.opened

def readRequest : ReadIndexReq := ⟨1,1,7⟩

theorem readIndexCoversTwo : ∃ c₁ c₂, threePeers.run commitTwo = some c₁ ∧ c₁.run [.request 9 1 readRequest] = some c₂ ∧
    answerOf c₂ ⟨9,1,.readIndex readRequest⟩ 0 = some (.readIndexResp ⟨1,2,7⟩) ∧
    ∀ id, ∀ n ∈ c₁.nodes id, n.raft.hard.commitIndex ≤ 2 := by
  obtain ⟨c₁,issued,c₂,later,answer⟩ : ∃ c₁ ∈ threePeers.run commitTwo, ∃ c₂ ∈ c₁.run [.request 9 1 readRequest],
      answerOf c₂ ⟨9,1,.readIndex readRequest⟩ 0 = some (.readIndexResp ⟨1,2,7⟩) := by decide +kernel
  exact ⟨c₁,c₂,issued,later,answer,readIndexCovers (by decide) issued (by decide +kernel) later answer
    (by decide +kernel)⟩

/- The second peer wins term 2 with the third and commits an entry; the first still
leads term 1 and has heard nothing of it. -/
def staleLeader : List Event := elect ++
  [.tick 2 100 0,.deliver ⟨2,3,.requestVote ⟨2,2,0,0⟩⟩ 0,.deliver ⟨3,2,.requestVoteResp ⟨2,true⟩⟩ 0,
    .propose 2 [98],.deliver ⟨2,3,.appendEntries ⟨2,2,0,0,[⟨2,[98]⟩],0⟩⟩ 0,
    .deliver ⟨3,2,.appendEntriesResp ⟨2,true,1⟩⟩ 0]

theorem staleLeaderAnswers : ∃ c₁ c₂, threePeers.run staleLeader = some c₁ ∧
    c₁.run [.request 9 1 readRequest] = some c₂ ∧
    answerOf c₂ ⟨9,1,.readIndex readRequest⟩ 0 = some (.readIndexResp ⟨1,0,7⟩) ∧
    ¬ ∀ id, ∀ n ∈ c₁.nodes id, n.raft.hard.commitIndex ≤ 0 := by
  obtain ⟨c₁,issued,commit,c₂,later,answer⟩ : ∃ c₁ ∈ threePeers.run staleLeader, counters c₁ 2 = some (1,1,1) ∧
      ∃ c₂ ∈ c₁.run [.request 9 1 readRequest],
        answerOf c₂ ⟨9,1,.readIndex readRequest⟩ 0 = some (.readIndexResp ⟨1,0,7⟩) := by decide +kernel
  refine ⟨c₁,c₂,issued,later,answer,?_⟩
  intro covers
  obtain ⟨n,found,is⟩ := map_eq_some_iff.mp commit
  have below := covers 2 n found
  have committed : n.raft.hard.commitIndex = 1 := congrArg (fun p => p.2.1) is
  omega

end NoeDB.RaftReadIndex
