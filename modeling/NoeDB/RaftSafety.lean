import NoeDB.RaftSimulation

/-! State-machine safety: what a node has committed is settled in the protocol, settled
prefixes agree, and so do the applied lists of any two nodes. -/
namespace NoeDB.RaftSafety
open RaftTypes RaftCore RaftRuntime RaftCluster RaftPlain RaftSteps Option Cluster
open RaftProgress RaftElection RaftLogMatching
open RaftTruth RaftSimulation Replication

theorem bootNode [Bincode] {id} (found : (boot ids voters tuning (fun _ => MemStorage.new) draw).nodes id = some n) :
    id ∈ ids ∧ n = ⟨Raft.new ((tuning id).config id voters) {} .new (draw id),.new,[]⟩ := by
  simp only [boot] at found
  split at found
  · rename_i listed
    exact ⟨listed,(some.inj found).symm⟩
  · cases found

theorem simBoot [Bincode] (peers : ∀ id ∈ ids, id ∈ voters) :
    Sim voters (boot ids voters tuning (fun _ => MemStorage.new) draw) (start RaftLog.new.entries) := by
  refine ⟨logsBoot peers,soundStart ?_,?_,?_⟩
  · intro e mem
    cases List.mem_singleton.mp mem
    rfl
  · intro id n found
    obtain ⟨listed,is⟩ := bootNode found
    have settled : Settled LogEntry.term voters (start RaftLog.new.entries) 0 0 :=
      ⟨0,Nat.le_refl 0,⟨_,rfl,rfl⟩,_,Majority.whole (List.ne_nil_of_mem (peers id listed)),
        fun _ _ => Nat.lt_succ_self 0⟩
    subst is
    refine ⟨rfl,rfl,?_,?_,?_,⟨0,Nat.le_refl 0,settled,rfl⟩,rfl,rfl⟩
    · intro candidate
      cases candidate
    · intro leads
      cases leads
    · intro leads
      cases leads
  · intro _ mem
    cases mem

def AppliedAgree (c : Cluster MemStorage) : Prop :=
  ∀ a b, ∀ n ∈ c.nodes a, ∀ m ∈ c.nodes b, n.applied <+: m.applied ∨ m.applied <+: n.applied

theorem commandsPrefix (front : a <+: b) : commandsOf (a.drop 1) <+: commandsOf (b.drop 1) :=
  ((front.drop 1).map LogEntry.command).filter _

theorem simAgree [Bincode] (inv : Sim voters c s) : AppliedAgree c := by
  intro a b n foundA m foundB
  have left := inv.nodes foundA
  have right := inv.nodes foundB
  obtain ⟨t,_,settled,same⟩ := left.committed
  obtain ⟨_,_,settled',same'⟩ := right.committed
  have agree := settledAgree inv.sound settled settled'
  rw [← same,← same'] at agree
  rw [left.applied,right.applied]
  exact agree.imp commandsPrefix commandsPrefix

theorem appliedPrefixes [Bincode] {ids voters : List NodeId} {tuning : NodeId → Tuning}
    {draw : NodeId → Nat} (peers : ∀ id ∈ ids, id ∈ voters) {events : List Event} {c : Cluster MemStorage}
    (ok : Execution.Admissible Cluster.step SafeStep
      (Cluster.boot ids voters tuning (fun _ => MemStorage.new) draw) events)
    (ran : (Cluster.boot ids voters tuning (fun _ => MemStorage.new) draw).run events = some c) : AppliedAgree c := by
  obtain ⟨s,_,sim⟩ := simRun (simBoot peers) ok ran
  exact simAgree sim

def appliedOf (c : Cluster MemStorage) (id : NodeId) : Option (List Command) :=
  (c.nodes id).map RaftNode.applied

theorem appliedPrefixesCommitTwo : ∃ c, threePeers.run commitTwo = some c ∧
    appliedOf c 1 = some [[97],[98]] ∧ appliedOf c 2 = some [[97],[98]] ∧ AppliedAgree c := by
  obtain ⟨c,ran,first,second⟩ : ∃ c ∈ threePeers.run commitTwo,
      appliedOf c 1 = some [[97],[98]] ∧ appliedOf c 2 = some [[97],[98]] := by decide +kernel
  exact ⟨c,ran,first,second,appliedPrefixes (by decide) (by decide +kernel) ran⟩

/-! The commit rule: who holds an entry that a node has committed. -/

def holds (c : Cluster MemStorage) (k : Nat) (e : LogEntry) (id : NodeId) : Bool :=
  (c.nodes id).any fun n => n.raft.log.entries[k]? = some e

theorem stepStays [Bincode] {c c' : Cluster MemStorage} (step : c.step e = some c') (id)
    (there : (c.nodes id).isSome) : (c'.nodes id).isSome := by
  have put {who : NodeId} {n : MemNode} {out} : ((c.put who n out).nodes id).isSome := by
    by_cases same : id = who
    · rw [same,putHere]
      rfl
    · rwa [putElse c n out same]
  cases stepCases step with
  | call _ _ _ _ next | crash _ _ _ next =>
    rw [next]
    exact put
  | refused _ _ _ next | request _ next =>
    rw [next]
    exact there

theorem simHeld [Bincode] (inv : Sim voters c s) (all : ∀ v ∈ voters, (c.nodes v).isSome) {id}
    (found : c.nodes id = some n) : ∃ e, n.raft.log.entries[n.raft.hard.commitIndex]? = some e ∧
      voters.length < 2*voters.countP (holds c n.raft.hard.commitIndex e) := by
  obtain ⟨t,_,⟨j,up,own,group,majority,reached⟩,same⟩ := (inv.nodes found).committed
  have live : Live LogEntry.term voters s t j := ⟨own,group,majority,fun v mem => .inl (reached v mem)⟩
  obtain ⟨e,inside⟩ : ∃ e, (s.led t)[n.raft.hard.commitIndex]? = some e :=
    ⟨_,List.getElem?_eq_getElem (lt_of_le_of_lt up own.length)⟩
  refine ⟨e,?_,lt_of_lt_of_le majority (Nat.mul_le_mul_left 2 (List.countP_mono_left fun v mem chosen => ?_))⟩
  · have here := congrArg (·[n.raft.hard.commitIndex]?) same
    simp only [List.getElem?_take,Nat.lt_succ_self,if_true] at here
    exact here.trans inside
  · obtain ⟨m,there⟩ := isSome_iff_exists.mp (all v mem)
    obtain ⟨_,whole⟩ := inv.sound.retained live (reached v (of_decide_eq_true chosen))
    have length := own.length
    rw [(inv.nodes there).log] at whole
    simp only [holds,there,any_some,decide_eq_true_eq]
    rw [← whole,List.getElem?_append_left (by rw [List.length_take]; omega),List.getElem?_take,if_pos (by omega)]
    exact inside

theorem committedHeld [Bincode] {voters : List NodeId} {tuning : NodeId → Tuning} {draw : NodeId → Nat}
    {events : List Event} {c : Cluster MemStorage}
    (ok : Execution.Admissible Cluster.step SafeStep
      (Cluster.boot voters voters tuning (fun _ => MemStorage.new) draw) events)
    (ran : (Cluster.boot voters voters tuning (fun _ => MemStorage.new) draw).run events = some c) {id n}
    (found : c.nodes id = some n) : ∃ e, n.raft.log.entries[n.raft.hard.commitIndex]? = some e ∧
      voters.length < 2*voters.countP (holds c n.raft.hard.commitIndex e) := by
  obtain ⟨s,_,sim⟩ := simRun (simBoot fun _ mem => mem) ok ran
  refine simHeld sim (fun v mem => ?_) found
  have stays := Execution.runRelation (R := fun c c' : Cluster MemStorage => ∀ id, (c.nodes id).isSome → (c'.nodes id).isSome)
    (fun _ _ there => there) (fun first second id there => second id (first id there)) stepStays ran
  refine stays v ?_
  simp only [boot,if_pos mem]
  rfl

theorem committedHeldTwo : ∃ c n, threePeers.run commitTwo = some c ∧ c.nodes 1 = some n ∧
    ∃ e, n.raft.log.entries[n.raft.hard.commitIndex]? = some e ∧
      [1,2,3].length < 2*[1,2,3].countP (holds c n.raft.hard.commitIndex e) := by
  obtain ⟨c,ran,n,found,-⟩ : ∃ c ∈ threePeers.run commitTwo, ∃ n ∈ c.nodes 1, True := by decide +kernel
  exact ⟨c,n,ran,found,committedHeld (by decide +kernel) ran found⟩

/- The first peer leads term 1 and keeps one proposal to itself. The second wins term 2
with the vote of the third; the first answers its empty request with a success that
names the old proposal's index, so a proposal of term 2 commits which only the second
holds. The first then wins term 3 with the third peer and commits another entry there. -/
def falseSuccess : List Event := elect ++
  [.propose 1 [97],.tick 2 100 0,.deliver ⟨2,3,.requestVote ⟨2,2,0,0⟩⟩ 0,
    .deliver ⟨3,2,.requestVoteResp ⟨2,true⟩⟩ 0,.deliver ⟨2,1,.appendEntries ⟨2,2,0,0,[],0⟩⟩ 0,
    .deliver ⟨1,2,.appendEntriesResp ⟨2,true,1⟩⟩ 0,.propose 2 [98],
    .deliver ⟨1,2,.appendEntriesResp ⟨2,true,1⟩⟩ 0,.tick 1 100 0,
    .deliver ⟨1,3,.requestVote ⟨3,1,1,1⟩⟩ 0,.deliver ⟨3,1,.requestVoteResp ⟨3,true⟩⟩ 0,
    .propose 1 [99],.deliver ⟨1,3,.appendEntries ⟨3,1,1,1,[],0⟩⟩ 0,
    .deliver ⟨3,1,.appendEntriesResp ⟨3,false,0⟩⟩ 0,
    .deliver ⟨1,3,.appendEntries ⟨3,1,0,0,[⟨1,[97]⟩,⟨3,[99]⟩],0⟩⟩ 0,
    .deliver ⟨3,1,.appendEntriesResp ⟨3,true,2⟩⟩ 0]

theorem falseSuccessDiverges : ∃ c, threePeers.run falseSuccess = some c ∧
    appliedOf c 1 = some [[97],[99]] ∧ appliedOf c 2 = some [[98]] ∧ ¬ AppliedAgree c := by
  obtain ⟨c,ran,first,second⟩ : ∃ c ∈ threePeers.run falseSuccess,
      appliedOf c 1 = some [[97],[99]] ∧ appliedOf c 2 = some [[98]] := by decide +kernel
  refine ⟨c,ran,first,second,?_⟩
  intro agree
  obtain ⟨n,foundA,atA⟩ := map_eq_some_iff.mp first
  obtain ⟨m,foundB,atB⟩ := map_eq_some_iff.mp second
  have both := agree 1 2 n foundA m foundB
  rw [atA,atB] at both
  revert both
  decide

/- The second peer leads and raises its commit index to an entry that only it holds. -/
theorem falseSuccessCommits : (threePeers.run (falseSuccess.take 10)).map (fun c => leaderTerm c 2) = some (some 2) ∧
      (threePeers.run (falseSuccess.take 10)).bind (fun c => counters c 2) = some (0,0,1) ∧
      (threePeers.run (falseSuccess.take 11)).bind (fun c => counters c 2) = some (1,1,1) ∧
      (threePeers.run (falseSuccess.take 11)).map (fun c => [1,2,3].filter (holds c 1 ⟨2,[98]⟩)) = some [2] := by
  refine ⟨?_,?_,?_,?_⟩ <;> decide +kernel

end NoeDB.RaftSafety
