import NoeDB.RaftPersistence

/-! The progress counters of a node: applied, committed and last index, and exactly
which deliveries turn them back or out of order. -/
namespace NoeDB.RaftProgress
open RaftTypes RaftCore RaftRuntime RaftCluster RaftEffects RaftPlain RaftSteps List Raft Option RaftLog
open RaftPersistence

structure Ordered (r : Raft) : Prop where
  applied : r.hard.lastApplied ≤ r.hard.commitIndex
  stored : r.hard.commitIndex ≤ r.log.lastIndex

structure Forward (r r' : Raft) : Prop where
  commit : r.hard.commitIndex ≤ r'.hard.commitIndex
  applied : r.hard.lastApplied ≤ r'.hard.lastApplied

theorem stableOrdered (stable : Stable r r') (before : Ordered r) : Ordered r' ∧ Forward r r' := by
  refine ⟨⟨?_,?_⟩,⟨?_,?_⟩⟩
  · rw [stable.applied,stable.commit]
    exact before.applied
  · rw [stable.commit,stable.log]
    exact before.stored
  · rw [stable.commit]
  · rw [stable.applied]

theorem storeLast (r : Raft) (req) : (r.storeEntries req).1.log.lastIndex = if req.entries = [] then r.log.lastIndex
    else min req.prevLogIndex r.log.lastIndex + req.entries.length := by
  unfold storeEntries
  by_cases none : req.entries = []
  · simp [none]
  · have cut := r.log.lastIndexSucc
    simp only [ne_eq,none,not_false_eq_true,if_true,if_false,lastIndex,
      appendEntries,truncateEntries,length_append,length_take]
    omega

theorem storeHard (r : Raft) (req) : (r.storeEntries req).1.hard = r.hard := by
  unfold storeEntries
  split <;> rfl

theorem restoredLast (log : RaftLog) (index term) : (log.restore index term []).lastIndex = index := by
  simp [lastIndex]

theorem installSnapshotOrdered (before : Ordered r) (sender req draw) :
    (Ordered (r.handleInstallSnapshot sender req draw).1 ∧ Forward r (r.handleInstallSnapshot sender req draw).1) ↔
    (req.term < r.hard.currentTerm ∨ r.hard.commitIndex ≤ req.lastIncludedIndex) := by
  have followed := becomeFollowerStable r req.term (some req.leaderId) draw
  have inOrder := before.applied
  have commit := followed.commit
  have applied := followed.applied
  unfold handleInstallSnapshot
  by_cases fresh : req.term ≥ r.hard.currentTerm
  · rw [if_pos fresh]
    have current : ¬ req.term < r.hard.currentTerm := by omega
    have last := restoredLast (r.becomeFollower req.term (some req.leaderId) draw).1.log
      req.lastIncludedIndex req.lastIncludedTerm
    constructor
    · rintro ⟨⟨_,stored⟩,⟨forward,_⟩⟩
      cases final : req.done
      all_goals
        simp only [finishSnapshot,final,Bool.false_eq_true,if_false,if_true,restoreLog,
          setCommit,setApplied] at stored forward
        omega
    · intro _
      cases final : req.done
      all_goals
        simp only [finishSnapshot,final,Bool.false_eq_true,if_false,if_true]
        refine ⟨⟨?_,?_⟩,⟨?_,?_⟩⟩ <;>
          simp only [restoreLog,setCommit,setApplied] <;> omega
  · rw [if_neg fresh]
    exact ⟨fun _ => .inl (by omega),fun _ => stableOrdered (.refl r) before⟩

theorem settleUncut (uncut : Uncut actions) (r) : settle r actions = r := by
  unfold settle
  rw [uncutLog uncut]

theorem storeUncut (r : Raft) (req) : Uncut (r.storeEntries req).2 := by
  unfold storeEntries
  split
  · intro a mem
    cases mem_singleton.mp mem
    rfl
  · exact uncutNil

section
variable [Bincode]

theorem followOrdered {r mid : Raft} (commit : mid.hard.commitIndex = r.hard.commitIndex)
    (applied : mid.hard.lastApplied = r.hard.lastApplied) (before : Ordered r) (req) :
    (Ordered (mid.followCommit req).1 ∧ Forward r (mid.followCommit req).1) ↔
      r.hard.commitIndex ≤ mid.log.lastIndex := by
  have inOrder := before.applied
  obtain ⟨log,counters⟩ := followCommitCounters mid req
  constructor
  · rintro ⟨⟨_,stored⟩,⟨forward,_⟩⟩
    rw [log] at stored
    exact forward.trans stored
  · intro _
    rcases counters with same | ⟨_,_⟩
    · refine ⟨⟨?_,?_⟩,⟨?_,?_⟩⟩
      · rw [same]
        omega
      · rw [same,log]
        omega
      · rw [same]
        omega
      · rw [same]
        omega
    · refine ⟨⟨?_,?_⟩,⟨?_,?_⟩⟩
      · omega
      · rw [log]
        omega
      · omega
      · omega

theorem appendEntriesOrdered (before : Ordered r) (sender req draw) :
    (Ordered (r.handleAppendEntries sender req draw).1 ∧ Forward r (r.handleAppendEntries sender req draw).1) ↔
    (req.term < r.hard.currentTerm ∨ r.log.termAt req.prevLogIndex ≠ req.prevLogTerm ∨ req.entries = [] ∨
      r.hard.commitIndex ≤ min req.prevLogIndex r.log.lastIndex + req.entries.length) := by
  have accepted := acceptStable r req draw
  unfold handleAppendEntries
  by_cases old : req.term < r.hard.currentTerm
  · rw [if_pos old]
    simp only [old,true_or,iff_true]
    exact stableOrdered (.refl r) before
  · rw [if_neg old]
    dsimp only [Raft.replicate]
    rw [accepted.log]
    by_cases gap : r.log.termAt req.prevLogIndex ≠ req.prevLogTerm
    · rw [if_pos gap]
      exact ⟨fun _ => .inr (.inl gap),fun _ => stableOrdered accepted before⟩
    · rw [if_neg gap]
      have last := storeLast (r.acceptLeader req draw).1 req
      have hard := storeHard (r.acceptLeader req draw).1 req
      rw [accepted.log] at last
      rw [followOrdered (by rw [hard,accepted.commit]) (by rw [hard,accepted.applied]) before,last]
      have stored := before.stored
      by_cases none : req.entries = []
      · rw [if_pos none]
        exact ⟨fun _ => .inr (.inr (.inl none)),fun _ => stored⟩
      · rw [if_neg none]
        simp [old,gap,none,false_or]

theorem tryAdvanceCounters (r) : ∃ k, Advanced r k ∧ r.tryAdvanceCommit.1.hard.commitIndex = k ∧
    r.tryAdvanceCommit.1.hard.lastApplied = max r.hard.lastApplied k ∧ r.hard.commitIndex ≤ k ∧
      ∀ i ≤ r.log.lastIndex, Counted r i → i ≤ k := by
  obtain ⟨k,eq,advanced,most,_⟩ := advanceSpec r
  refine ⟨k,advanced,?_⟩
  have hard := applyCommittedHard r.advanceLoop.1
  rw [eq] at hard
  unfold tryAdvanceCommit
  dsimp only
  rw [eq]
  split <;> exact ⟨congrArg HardState.commitIndex hard,congrArg HardState.lastApplied hard,most⟩

theorem tryAdvanceCut (r : Raft) (log) : r.tryAdvanceCommit.2.foldl cutLog log =
    if r.tryAdvanceCommit.1.compacts then log.restore r.tryAdvanceCommit.1.hard.lastApplied
      (r.tryAdvanceCommit.1.log.termAt r.tryAdvanceCommit.1.hard.lastApplied) [] else log := by
  have free : LogFree (r.advanceLoop.2 ++ r.advanceLoop.1.applyCommitted.2 ++ []) :=
    ((advanceLogFree r).append (applyCommittedLogFree _)).append logFreeNil
  unfold tryAdvanceCommit
  dsimp only
  split
  · rw [foldl_append]
    rfl
  · exact free.cut log

theorem appendResponseOrdered (before : Ordered r) (sender resp draw) :
    Ordered (settle (r.stepAppendResponse sender resp draw).1 (r.stepAppendResponse sender resp draw).2) ∧
    Forward r (settle (r.stepAppendResponse sender resp draw).1 (r.stepAppendResponse sender resp draw).2) := by
  unfold stepAppendResponse
  split
  · exact stableOrdered (becomeFollowerStable r resp.term none draw) before
  · split
    · exact stableOrdered (.refl r) before
    · split
      · exact stableOrdered (.refl r) before
      · rename_i p _
        have inOrder := before.applied
        have stored := before.stored
        obtain ⟨k,advanced,_,applied,_⟩ := tryAdvanceCounters (r.recordAck sender p resp)
        have log : (r.recordAck sender p resp).tryAdvanceCommit.1.log = r.log :=
          (tryAdvanceUntouched (r.recordAck sender p resp)).log
        have bound : r.hard.commitIndex ≤ k ∧ k ≤ r.log.lastIndex := by
          rcases advanced.cases with same | ⟨more,inside,_⟩
          · rw [same]
            exact ⟨Nat.le_refl _,stored⟩
          · exact ⟨Nat.le_of_lt more,inside⟩
        have applied' : (r.recordAck sender p resp).tryAdvanceCommit.1.hard.lastApplied = k := by
          rw [applied]
          exact Nat.max_eq_right (inOrder.trans bound.1)
        have last : ((r.recordAck sender p resp).tryAdvanceCommit.2.foldl cutLog r.log).lastIndex = r.log.lastIndex ∨
            ((r.recordAck sender p resp).tryAdvanceCommit.2.foldl cutLog r.log).lastIndex = k := by
          rw [tryAdvanceCut]
          split
          · exact .inr ((restoredLast _ _ _).trans applied')
          · exact .inl rfl
        have ordered : Ordered (settle (r.recordAck sender p resp).tryAdvanceCommit.1
            (r.recordAck sender p resp).tryAdvanceCommit.2) ∧
            Forward r (settle (r.recordAck sender p resp).tryAdvanceCommit.1
              (r.recordAck sender p resp).tryAdvanceCommit.2) := by
          refine ⟨⟨?_,?_⟩,⟨?_,?_⟩⟩ <;> simp only [settle,log] <;> omega
        dsimp only
        split_ifs
        · have sends := (bareLogFree (appendToPeerBare (r.recordAck sender p resp).tryAdvanceCommit.1 sender)).cut
          simp only [settle,foldl_append,sends] at ordered ⊢
          exact ordered
        · exact ordered

theorem appendEntriesSettle (r : Raft) (sender req draw) :
    settle (r.handleAppendEntries sender req draw).1 (r.handleAppendEntries sender req draw).2.2 =
      (r.handleAppendEntries sender req draw).1 := by
  have accepted := bareLogFree (acceptBare r req draw)
  unfold settle handleAppendEntries
  split
  · rfl
  · dsimp only [Raft.replicate]
    split
    · rw [accepted.cut]
    · have followed := followCommitLogFree ((r.acceptLeader req draw).1.storeEntries req).1 req
      rw [foldl_append,foldl_append,accepted.cut, uncutLog (storeUncut (r.acceptLeader req draw).1 req),followed.cut]

def Covering (r : Raft) : RpcMessage → Prop
  | .appendEntries req => req.term < r.hard.currentTerm ∨
      r.log.termAt req.prevLogIndex ≠ req.prevLogTerm ∨ req.entries = [] ∨
      r.hard.commitIndex ≤ min req.prevLogIndex r.log.lastIndex + req.entries.length
  | .installSnapshot req => req.term < r.hard.currentTerm ∨
      r.hard.commitIndex ≤ req.lastIncludedIndex
  | _ => True

theorem dispatchOrdered (before : Ordered r) (sender msg draw) :
    (Ordered (settle (RaftNode.dispatch r sender msg draw).1 (RaftNode.dispatch r sender msg draw).2.2) ∧
      Forward r (settle (RaftNode.dispatch r sender msg draw).1
        (RaftNode.dispatch r sender msg draw).2.2)) ↔ Covering r msg := by
  cases msg with
  | requestVote req =>
    simp only [RaftNode.dispatch,step,settleUncut (requestVoteBare r sender req draw).uncut]
    exact ⟨fun _ => trivial,fun _ => stableOrdered (requestVoteStable r sender req draw) before⟩
  | requestVoteResp resp =>
    simp only [RaftNode.dispatch,settleUncut (voteResponseBare r sender resp draw).uncut]
    exact ⟨fun _ => trivial,fun _ => stableOrdered (voteResponseStable r sender resp draw) before⟩
  | appendEntries req =>
    simp only [RaftNode.dispatch,step,appendEntriesSettle]
    exact appendEntriesOrdered before sender req draw
  | appendEntriesResp resp =>
    exact ⟨fun _ => trivial,fun _ => appendResponseOrdered before sender resp draw⟩
  | installSnapshot req =>
    have same : settle (r.handleInstallSnapshot sender req draw).1 (r.handleInstallSnapshot sender req draw).2.2 =
        (r.handleInstallSnapshot sender req draw).1 := by
      unfold handleInstallSnapshot
      split
      · cases final : req.done <;>
          simp only [finishSnapshot,final,if_true,Bool.false_eq_true,if_false] <;> rfl
      · rfl
    simp only [RaftNode.dispatch,step,same]
    exact installSnapshotOrdered before sender req draw
  | installSnapshotResp | readIndexResp => exact ⟨fun _ => trivial,fun _ => stableOrdered (.refl r) before⟩
  | readIndex req =>
    simp only [RaftNode.dispatch,step,settleUncut (readIndexBare r sender req).uncut]
    exact ⟨fun _ => trivial,fun _ => stableOrdered (readIndexStable r sender req) before⟩

end

theorem ownEntryOrdered (before : Ordered r) (hard : r'.hard = r.hard)
    (log : r'.log.entries = r.log.entries ++ [e]) : Ordered r' ∧ Forward r r' := by
  have stored := before.stored
  have last := r'.log.lastIndexSucc
  have last' := r.log.lastIndexSucc
  rw [log,length_append] at last
  refine ⟨⟨?_,?_⟩,⟨?_,?_⟩⟩
  · rw [hard]
    exact before.applied
  · rw [hard]
    omega
  · rw [hard]
  · rw [hard]

section
variable [Bincode]

def CoveringEvent (r : Raft) (e : Event) : Prop := ∀ s m, incoming e = some (s,m) → Covering r m

theorem coreOrdered (core : CoreCall r e r' actions out) (before : Ordered r) :
    (Ordered (settle r' actions) ∧ Forward r (settle r' actions)) ↔ CoveringEvent r e := by
  have silent : ∀ {e}, incoming e = none → CoveringEvent r e := by
    intro e none s m some
    rw [none] at some
    cases some
  have own : ∀ cmd, Uncut [r.persistOwn cmd] := by
    intro _ a mem
    cases mem_singleton.mp mem
    rfl
  cases core with
  | tick =>
    rw [settleUncut (tickBare r _ _).uncut]
    exact ⟨fun _ => silent rfl,fun _ => stableOrdered (tickStable r _ _) before⟩
  | @deliver env draw =>
    rw [dispatchOrdered before]
    constructor
    · intro covering s m arrives
      cases arrives
      exact covering
    · exact fun all => all _ _ rfl
  | propose | readIndex | proposeConfChange =>
    rw [settleUncut ((own _).append (broadcastBare _).uncut)]
    exact ⟨fun _ => silent rfl,fun _ => ownEntryOrdered before rfl rfl⟩

end

def AllOrdered (c : Cluster MemStorage) : Prop := ∀ id, ∀ n ∈ c.nodes id, Ordered n.raft

def CountersKept (c c' : Cluster MemStorage) : Prop :=
  ∀ id, ∀ n ∈ c.nodes id, ∃ n' ∈ c'.nodes id, Ordered n'.raft ∧ Forward n.raft n'.raft

def KeepsCounters (c : Cluster MemStorage) : Event → Prop
  | .deliver env _ => ∀ n ∈ c.nodes env.target, Covering n.raft env.msg
  | _ => True

theorem keepsCountersIff (found : c.nodes (actor e) = some n) : CoveringEvent n.raft e ↔ KeepsCounters c e := by
  cases e with
  | deliver =>
    constructor
    · intro covering m there
      cases some.inj (found.symm.trans there)
      exact covering _ _ rfl
    · intro keeps s m arrives
      cases arrives
      exact keeps n found
  | _ => exact ⟨fun _ => trivial,fun _ s m arrives => by cases arrives⟩

theorem countersSame (before : AllOrdered c) (nodes : c'.nodes = c.nodes) : CountersKept c c' := by
  intro id n found
  exact ⟨n,nodes ▸ found,stableOrdered (.refl _) (before id n found)⟩

theorem countersStep [Bincode] (calm : CrashFree e) (before : AllOrdered c) (step : c.step e = some c') :
    CountersKept c c' ↔ KeepsCounters c e := by
  cases stepCases step with
  | @call n r' actions out sent found received core posted next =>
    have settled := memSettle n r' actions
    have here : c'.nodes (actor e) = some ({n with raft := r'}.exec actions).1 := by
      rw [next]
      simp [Cluster.put]
    rw [← keepsCountersIff found,← coreOrdered core (before _ n found),← settled]
    constructor
    · intro kept
      obtain ⟨m,there,facts⟩ := kept _ n found
      cases some.inj (here.symm.trans there)
      exact facts
    · intro facts id m there
      by_cases same : id = actor e
      · subst same
        cases some.inj (found.symm.trans there)
        exact ⟨_,here,facts⟩
      · refine ⟨m,?_,stableOrdered (.refl _) (before id m there)⟩
        rw [next]
        simpa [Cluster.put,same] using there
  | refused found _ alone next =>
    refine ⟨fun _ => ?_,fun _ => countersSame before (congrArg Cluster.nodes next)⟩
    rw [← keepsCountersIff found]
    intro s m arrives
    rw [alone] at arrives
    cases arrives
  | request asks next =>
    subst asks next
    exact ⟨fun _ => trivial,fun _ => countersSame before rfl⟩
  | crash stops =>
    subst stops
    cases calm

theorem countersInvariant [Bincode] (step : c.step e = some c') (kept : CountersKept c c') : AllOrdered c' := by
  intro id _ found
  obtain ⟨n,there⟩ := stepNodes step found
  obtain ⟨m,same,ordered,_⟩ := kept id n there
  cases some.inj (found.symm.trans same)
  exact ordered

theorem bootOrdered (ids voters tuning draw) :
    AllOrdered (Cluster.boot ids voters tuning (fun _ => MemStorage.new) draw) := by
  intro _ n found
  simp only [Cluster.boot,mem_def] at found
  split at found
  · cases some.inj found
    exact ⟨Nat.le_refl _,Nat.le_refl _⟩
  · cases found

theorem countersExact [Bincode] {ids voters : List NodeId} {tuning : NodeId → Tuning}
    {draw : NodeId → Nat} {events : List Event} {c : Cluster MemStorage} (crashFree : ∀ e ∈ events, CrashFree e)
    (ran : (Cluster.boot ids voters tuning (fun _ => MemStorage.new) draw).run events = some c) :
    Execution.Linked Cluster.step CountersKept (Cluster.boot ids voters tuning (fun _ => MemStorage.new) draw) events ↔
      Execution.Admissible Cluster.step KeepsCounters
        (Cluster.boot ids voters tuning (fun _ => MemStorage.new) draw) events :=
  Execution.linkedIff countersStep (fun _ step kept => countersInvariant step kept) crashFree
    (bootOrdered ids voters tuning draw) ran

def threePeers : Cluster MemStorage :=
  Cluster.boot [1,2,3] [1,2,3] (fun _ => ⟨100,100,25,64⟩) (fun _ => MemStorage.new) (fun _ => 0)

def elect : List Event :=
  [.tick 1 100 0,.deliver ⟨1,2,.requestVote ⟨1,1,0,0⟩⟩ 0,.deliver ⟨2,1,.requestVoteResp ⟨1,true⟩⟩ 0]

def commitTwo : List Event := elect ++
  [.propose 1 [97],.propose 1 [98],.deliver ⟨1,2,.appendEntries ⟨1,1,0,0,[⟨1,[97]⟩,⟨1,[98]⟩],0⟩⟩ 0,
    .deliver ⟨2,1,.appendEntriesResp ⟨1,true,2⟩⟩ 0,.tick 1 25 0,
    .deliver ⟨1,2,.appendEntries ⟨1,1,2,1,[],2⟩⟩ 0]

theorem countersCommitTwo : Execution.Linked Cluster.step CountersKept threePeers commitTwo ↔
    Execution.Admissible Cluster.step KeepsCounters threePeers commitTwo := by
  obtain ⟨c,ran,-⟩ : ∃ c ∈ threePeers.run commitTwo, True := by decide +kernel
  exact countersExact (by decide) ran

def counters (c : Cluster MemStorage) (id : NodeId) : Option (Nat × Nat × Nat) :=
  (c.nodes id).map (fun n => (n.raft.hard.lastApplied,n.raft.hard.commitIndex,n.raft.log.lastIndex))

/- The first proposal's request arrives after all this: the second peer drops an
entry it has committed and applied. -/
theorem lateRequestDropsCommitted : (threePeers.run commitTwo).bind (fun c => counters c 2) = some (2,2,2) ∧
    (threePeers.run (commitTwo ++
      [.deliver ⟨1,2,.appendEntries ⟨1,1,0,0,[⟨1,[97]⟩],0⟩⟩ 0])).bind (fun c => counters c 2) = some (2,2,1) := by
  constructor <;> decide +kernel

end NoeDB.RaftProgress
