import NoeDB.RaftReplication

/-! What single calls do to the log of a node: a request that is delivered again, and the
calls of a leader. -/
namespace NoeDB.RaftLogChanges
open RaftTypes RaftCore RaftRuntime RaftCluster RaftEffects RaftPlain RaftSteps List Raft Nat Execution
open RaftPersistence RaftProgress RaftReplication

def Caught (r : Raft) : Prop := r.hard.commitIndex ≤ r.hard.lastApplied

theorem stableCaught (stable : Stable r r') (before : Caught r) : Caught r' := by
  rw [Caught,stable.commit,stable.applied]
  exact before

theorem installSnapshotCaught (before : Caught r) (sender req draw) :
    Caught (r.handleInstallSnapshot sender req draw).1 := by
  unfold handleInstallSnapshot
  split
  · have followed := stableCaught (becomeFollowerStable r req.term (some req.leaderId) draw) before
    cases final : req.done <;> simp [finishSnapshot,final,Bool.false_eq_true]
    · exact followed
    · exact le_refl req.lastIncludedIndex
  · exact before

def AllCaught (c : Cluster MemStorage) : Prop := ∀ id, ∀ n ∈ c.nodes id, Caught n.raft

theorem caughtBoot (ids voters tuning draw) :
    AllCaught (Cluster.boot ids voters tuning (fun _ => MemStorage.new) draw) := by
  intro _ n found
  simp only [Cluster.boot,Option.mem_def] at found
  split at found
  · cases Option.some.inj found
    exact le_refl 0
  · cases found

def Repeats (r : Raft) (req : AppendEntriesReq) : Prop :=
  req.term < r.hard.currentTerm ∨ r.log.termAt req.prevLogIndex ≠ req.prevLogTerm ∨
    (req.entries = [] ∨ r.log.entries.drop (req.prevLogIndex+1) = req.entries) ∧
      (req.leaderCommit ≤ r.hard.commitIndex ∨ r.log.lastIndex = r.hard.commitIndex ∨
        r.log.termAt (min req.leaderCommit r.log.lastIndex) ≠ req.term)

theorem storeSame (r : Raft) (req) : (r.storeEntries req).1.log = r.log ↔
    req.entries = [] ∨ r.log.entries.drop (req.prevLogIndex+1) = req.entries := by
  have log := storeEntriesLog r req
  constructor
  · intro same
    rw [same] at log
    split at log
    · exact .inl ‹_›
    · exact .inr (append_cancel_left ((take_append_drop (req.prevLogIndex+1) _).trans log))
  · intro same
    refine RaftLog.ext (log.trans ?_)
    split
    · rfl
    · rename_i filled
      rw [← same.resolve_left filled,take_append_drop]

section
variable [Bincode]

theorem appendEntriesCaught (before : Caught r) (sender req draw) :
    Caught (r.handleAppendEntries sender req draw).1 := by
  have accepted := stableCaught (acceptStable r req draw) before
  unfold handleAppendEntries
  split
  · exact before
  · dsimp only [Raft.replicate]
    split
    · exact accepted
    · rcases (followCommitCounters ((r.acceptLeader req draw).1.storeEntries req).1 req).2 with same | ⟨_,commit,applied⟩
      · rw [Caught,same,storeHard]
        exact accepted
      · rw [Caught,commit,applied]
        exact le_max_right _ _

theorem appendResponseCaught (before : Caught r) (sender resp draw) :
    Caught (r.stepAppendResponse sender resp draw).1 := by
  unfold stepAppendResponse
  split
  · exact stableCaught (becomeFollowerStable r resp.term none draw) before
  · split
    · exact before
    · split
      · exact before
      · rename_i p _
        obtain ⟨k,_,commit,applied,_⟩ := tryAdvanceCounters (r.recordAck sender p resp)
        have caught : Caught (r.recordAck sender p resp).tryAdvanceCommit.1 := by
          rw [Caught,commit,applied]
          exact le_max_right _ _
        dsimp only
        split_ifs <;> exact caught

theorem coreCaught (core : CoreCall r e r' actions out) (before : Caught r) : Caught r' := by
  cases core with
  | tick => exact stableCaught (tickStable r _ _) before
  | @deliver env draw =>
    cases env.msg with
    | requestVote req => exact stableCaught (requestVoteStable r env.sender req draw) before
    | requestVoteResp resp => exact stableCaught (voteResponseStable r env.sender resp draw) before
    | appendEntries req => exact appendEntriesCaught before env.sender req draw
    | appendEntriesResp resp => exact appendResponseCaught before env.sender resp draw
    | installSnapshot req => exact installSnapshotCaught before env.sender req draw
    | readIndex req => exact stableCaught (readIndexStable r env.sender req) before
    | installSnapshotResp | readIndexResp => exact before
  | propose | readIndex | proposeConfChange => exact before

theorem caughtStep (before : AllCaught c) (calm : CrashFree e) (step : c.step e = some c') : AllCaught c' := by
  intro id m there
  cases stepCases step with
  | @call n r' actions out sent found _ core _ next =>
    subst next
    by_cases same : id = actor e
    · subst same
      cases Option.some.inj ((putHere _ _ _ _).symm.trans there)
      rw [memSettle]
      exact (coreCaught core (before _ n found) : Caught r')
    · rw [putElse _ _ _ same] at there
      exact before id m there
  | refused _ _ _ next | request _ next =>
    subst next
    exact before id m there
  | crash stops =>
    subst stops
    cases calm

theorem followKept {r} (caught : Caught r) (req) :
    ((r.followCommit req).1.hard.commitIndex = r.hard.commitIndex ∧ appliesOf (r.followCommit req).2 = []) ↔
      (req.leaderCommit ≤ r.hard.commitIndex ∨ r.log.lastIndex = r.hard.commitIndex ∨
        r.log.termAt (min req.leaderCommit r.log.lastIndex) ≠ req.term) := by
  unfold followCommit
  by_cases more : req.leaderCommit > r.hard.commitIndex
  · rw [if_pos more]
    by_cases own : r.log.termAt (min req.leaderCommit r.log.lastIndex) = req.term
    · dsimp only
      rw [if_pos own,applyCommittedHard]
      constructor
      · rintro ⟨same,_⟩
        have same : min req.leaderCommit r.log.lastIndex = r.hard.commitIndex := same
        exact .inr (.inl (by omega))
      · rintro (_ | _ | other)
        · omega
        · have same : min req.leaderCommit r.log.lastIndex = r.hard.commitIndex := by omega
          have none : r.hard.commitIndex - r.hard.lastApplied = 0 := Nat.sub_eq_zero_of_le caught
          refine ⟨same,?_⟩
          simp only [same,applyCommitted,setCommit,none,applyLoop]
          rfl
        · exact absurd own other
    · simp [own]
  · rw [if_neg more]
    exact iff_of_true ⟨rfl,rfl⟩ (.inl (by omega))

theorem appendEntriesLog (r : Raft) (sender req draw) : (r.handleAppendEntries sender req draw).1.log =
    if req.term < r.hard.currentTerm ∨ r.log.termAt req.prevLogIndex ≠ req.prevLogTerm then r.log
    else (r.storeEntries req).1.log := by
  have accepted := acceptStable r req draw
  unfold handleAppendEntries
  by_cases old : req.term < r.hard.currentTerm
  · rw [if_pos old,if_pos (.inl old)]
  rw [if_neg old]
  dsimp only [Raft.replicate]
  rw [accepted.log]
  by_cases gap : r.log.termAt req.prevLogIndex ≠ req.prevLogTerm
  · rw [if_pos gap,if_pos (.inr gap)]
    exact accepted.log
  · rw [if_neg gap,if_neg (not_or.mpr ⟨old,gap⟩),(followCommitCounters _ req).1]
    apply RaftLog.ext
    rw [storeEntriesLog,storeEntriesLog,accepted.log]

theorem appendEntriesKept (caught : Caught r) (sender req draw) :
    ((r.handleAppendEntries sender req draw).1.log = r.log ∧
      (r.handleAppendEntries sender req draw).1.hard.commitIndex = r.hard.commitIndex ∧
      appliesOf (r.handleAppendEntries sender req draw).2.2 = []) ↔ Repeats r req := by
  have accepted := acceptStable r req draw
  have bare := (acceptBare r req draw).applies
  unfold handleAppendEntries Repeats
  by_cases old : req.term < r.hard.currentTerm
  · rw [if_pos old]
    exact iff_of_true ⟨rfl,rfl,rfl⟩ (.inl old)
  rw [if_neg old]
  dsimp only [Raft.replicate]
  rw [accepted.log]
  by_cases gap : r.log.termAt req.prevLogIndex ≠ req.prevLogTerm
  · rw [if_pos gap]
    exact iff_of_true ⟨accepted.log,accepted.commit,bare⟩ (.inr (.inl gap))
  rw [if_neg gap]
  have stored := storeSame (r.acceptLeader req draw).1 req
  have followed := followCommitCounters ((r.acceptLeader req draw).1.storeEntries req).1 req
  have kept := @followKept _ ((r.acceptLeader req draw).1.storeEntries req).1
    (by rw [Caught,storeHard]; exact stableCaught accepted caught) req
  rw [storeHard,accepted.commit] at kept
  rw [accepted.log] at stored
  simp only [old,gap,false_or,followed.1,appliesOfAppend,bare,storeApplies,nil_append]
  rw [← stored]
  refine and_congr_right fun same => ?_
  rw [kept,same]

end

structure Kept (n n' : MemNode) : Prop where
  log : n'.raft.log = n.raft.log
  commit : n'.raft.hard.commitIndex = n.raft.hard.commitIndex
  applied : n'.applied = n.applied

theorem repeatedIff [Bincode] {ids voters : List NodeId} {tuning : NodeId → Tuning} {boot : NodeId → Nat}
    {events : List Event} {c : Cluster MemStorage} (crashFree : ∀ e ∈ events, CrashFree e)
    (ran : (Cluster.boot ids voters tuning (fun _ => MemStorage.new) boot).run events = some c) {id n}
    (found : c.nodes id = some n) (sender req draw) :
    Kept n (n.step sender (.appendEntries req) draw).1 ↔ Repeats n.raft req := by
  have caught : Caught n.raft :=
    runInvariant (fun _ _ _ inv calm step => caughtStep inv calm step) (caughtBoot ids voters tuning boot)
      (admissibleAll crashFree _) ran id n found
  have raft := memSettle n (n.raft.handleAppendEntries sender req draw).1 (n.raft.handleAppendEntries sender req draw).2.2
  have exec := (memExec {n with raft := (n.raft.handleAppendEntries sender req draw).1}
    (n.raft.handleAppendEntries sender req draw).2.2).2
  rw [appendEntriesSettle] at raft
  rw [← appendEntriesKept caught sender req draw,← raft]
  constructor
  · rintro ⟨log,commit,applied⟩
    exact ⟨log,commit,append_right_eq_self.mp (exec.applied.symm.trans applied)⟩
  · rintro ⟨log,commit,none⟩
    refine ⟨log,commit,exec.applied.trans ?_⟩
    rw [none,append_nil]

theorem repeatedHeartbeat : ∃ c n, threePeers.run commitTwo = some c ∧ c.nodes 2 = some n ∧
    (Kept n (n.step 1 (.appendEntries ⟨1,1,2,1,[],2⟩) 0).1 ↔ Repeats n.raft ⟨1,1,2,1,[],2⟩) := by
  obtain ⟨c,ran,n,found,-⟩ : ∃ c ∈ threePeers.run commitTwo, ∃ n ∈ c.nodes 2, True := by decide +kernel
  exact ⟨c,n,ran,found,repeatedIff (by decide) ran found 1 _ 0⟩

/- The second peer takes one entry and then both; the first request comes again. -/
def twoRequests : List Event := elect ++
  [.propose 1 [97],.deliver ⟨1,2,.appendEntries ⟨1,1,0,0,[⟨1,[97]⟩],0⟩⟩ 0,.propose 1 [98],
    .deliver ⟨1,2,.appendEntries ⟨1,1,0,0,[⟨1,[97]⟩,⟨1,[98]⟩],0⟩⟩ 0]

theorem repeatedRequestCuts :
    (threePeers.run twoRequests).map (fun c => decide (⟨2,1,.appendEntriesResp ⟨1,true,1⟩⟩ ∈ c.net)) = some true ∧
      (threePeers.run twoRequests).bind (fun c => counters c 2) = some (0,0,2) ∧
      (threePeers.run (twoRequests ++ [.deliver ⟨1,2,.appendEntries ⟨1,1,0,0,[⟨1,[97]⟩],0⟩⟩ 0])).bind
        (fun c => counters c 2) = some (0,0,1) := by
  refine ⟨?_,?_,?_⟩ <;> decide +kernel

/-! The calls of a leader that stays one. -/

def Covered (n : MemNode) (i : Nat) : Prop := ∃ snap ∈ n.storage.snapshot, i ≤ snap.index

structure AppendOnly (n m : MemNode) : Prop where
  entries : ∀ i e, n.raft.log.entries[i]? = some e → Covered m i ∨ m.raft.log.entries[i]? = some e
  last : n.raft.log.lastIndex ≤ m.raft.log.lastIndex

/- A request in the leader's own name holds the rest of the log; an answer leaves less than
the threshold of compaction behind what is applied, committed or now counted by a quorum. -/
def Appends (n : MemNode) : NodeCall → Prop
  | .step _ (.appendEntries req) _ => req.term ≠ n.raft.hard.currentTerm ∨ req.leaderId ≠ n.raft.config.id ∨
      n.raft.log.termAt req.prevLogIndex ≠ req.prevLogTerm ∨ req.entries = [] ∨
      n.raft.log.lastIndex ≤ req.prevLogIndex + req.entries.length ∧
        ∀ i e, req.prevLogIndex < i → n.raft.log.entries[i]? = some e →
          Covered n i ∨ req.entries[i-(req.prevLogIndex+1)]? = some e
  | .step sender (.appendEntriesResp resp) _ => n.raft.hard.currentTerm < resp.term ∨
      ∀ p ∈ n.raft.progress sender, ∃ i, n.raft.log.lastIndex ≤ i + n.raft.compactThreshold ∧
        (i ≤ max n.raft.hard.lastApplied n.raft.hard.commitIndex ∨
          i ≤ n.raft.log.lastIndex ∧ Counted (n.raft.recordAck sender p resp) i)
  | _ => True

theorem AppendOnly.grown {n m : MemNode} (more) (log : m.raft.log.entries = n.raft.log.entries ++ more) :
    AppendOnly n m := by
  have length := congrArg length log
  have last := n.raft.log.lastIndexSucc
  have last' := m.raft.log.lastIndexSucc
  rw [length_append] at length
  refine ⟨fun i e found => .inr ?_,by omega⟩
  rw [log,List.getElem?_append_left (List.getElem?_eq_some_iff.mp found).1]
  exact found

theorem AppendOnly.same {n m : MemNode} (log : m.raft.log = n.raft.log) : AppendOnly n m :=
  .grown [] (by rw [log,append_nil])

theorem AppendOnly.uncut {n : MemNode} (log : r'.log = n.raft.log) (uncut : Uncut actions) :
    AppendOnly n ({n with raft := r'}.exec actions).1 :=
  .same (by rw [memSettle,settleUncut uncut]; exact log)

theorem uncutSnapshot {n : MemNode} {outbound actions} (uncut : Uncut actions) :
    (n.execLoop outbound actions).1.storage.snapshot = n.storage.snapshot := by
  induction actions generalizing n outbound with
  | nil => rfl
  | cons action _ ih =>
    rw [memExecCons,ih fun a mem => uncut a (mem_cons_of_mem _ mem)]
    have here := uncut action mem_cons_self
    cases action with
    | snapshot => cases here
    | _ => rfl

theorem splicedIff {n m : MemNode} {req : AppendEntriesReq} (snapshot : m.storage.snapshot = n.storage.snapshot)
    (log : m.raft.log.entries = n.raft.log.entries.take (req.prevLogIndex+1) ++ req.entries) :
    AppendOnly n m ↔ n.raft.log.lastIndex ≤ req.prevLogIndex + req.entries.length ∧
      ∀ i e, req.prevLogIndex < i → n.raft.log.entries[i]? = some e →
        Covered n i ∨ req.entries[i-(req.prevLogIndex+1)]? = some e := by
  have size := congrArg length log
  have before := n.raft.log.lastIndexSucc
  have after := m.raft.log.lastIndexSucc
  have covered : ∀ i, Covered m i ↔ Covered n i := fun i => by rw [Covered,Covered,snapshot]
  have behind {i e} (found : n.raft.log.entries[i]? = some e) (beyond : req.prevLogIndex < i) :
      m.raft.log.entries[i]? = req.entries[i-(req.prevLogIndex+1)]? := by
    have inside := (List.getElem?_eq_some_iff.mp found).1
    rw [log,List.getElem?_append_right (by rw [length_take]; omega),length_take,min_eq_left (by omega)]
  rw [length_append,length_take] at size
  constructor
  · rintro ⟨entries,last⟩
    refine ⟨by omega,fun i e beyond found => ?_⟩
    rw [← covered,← behind found beyond]
    exact entries i e found
  · rintro ⟨_,entries⟩
    refine ⟨fun i e found => ?_,by omega⟩
    have inside := (List.getElem?_eq_some_iff.mp found).1
    by_cases beyond : req.prevLogIndex < i
    · rw [covered,behind found beyond]
      exact entries i e beyond found
    · right
      rw [log,List.getElem?_append_left (by rw [length_take]; omega),List.getElem?_take,if_pos (by omega)]
      exact found

theorem ownAppends {n : MemNode} (log : r'.log = (n.raft.appendOwn cmd).log) (bare : Bare more) :
    AppendOnly n ({n with raft := r'}.exec ([n.raft.persistOwn cmd] ++ more)).1 := by
  refine .grown [⟨n.raft.hard.currentTerm,cmd⟩] ?_
  rw [memSettle]
  show (more.foldl cutLog r'.log).entries = _
  rw [(bareLogFree bare).cut,log]
  rfl

section
variable [Bincode] {n : MemNode} {sender : NodeId} {draw : Nat}

theorem appendEntriesAppends {req : AppendEntriesReq} (leads : n.raft.soft.role = .leader)
    (stays : (n.raft.handleAppendEntries sender req draw).1.soft.role = .leader) :
    AppendOnly n ({n with raft := (n.raft.handleAppendEntries sender req draw).1}.exec
      (n.raft.handleAppendEntries sender req draw).2.2).1 ↔ Appends n (.step sender (.appendEntries req) draw) := by
  have raft := memSettle n (n.raft.handleAppendEntries sender req draw).1 (n.raft.handleAppendEntries sender req draw).2.2
  have snapshot := @uncutSnapshot {n with raft := (n.raft.handleAppendEntries sender req draw).1} []
    _ (appendEntriesUncut n.raft sender req draw)
  have log := appendEntriesLog n.raft sender req draw
  rw [appendEntriesSettle] at raft
  rw [← congrArg Raft.log raft] at log
  by_cases old : req.term < n.raft.hard.currentTerm
  · rw [if_pos (.inl old)] at log
    exact iff_of_true (.same log) (.inl (by omega))
  · have standing := replicateStanding (n.raft.acceptLeader req draw).1 req (n.raft.acceptLeader req draw).2
    rw [handleAppendEntries,if_neg old,standing.soft] at stays
    rcases (acceptFacts n.raft req draw (by omega)).2 with follows | ⟨current,_,_,_,own⟩
    · rw [stays] at follows
      cases follows
    · by_cases gap : n.raft.log.termAt req.prevLogIndex ≠ req.prevLogTerm
      · rw [if_pos (.inr gap)] at log
        exact iff_of_true (.same log) (.inr (.inr (.inl gap)))
      · rw [if_neg (by simp [old,gap,or_self,not_false_eq_true])] at log
        by_cases none : req.entries = []
        · have same : (n.raft.storeEntries req).1.log = n.raft.log := (storeSame n.raft req).mpr (.inl none)
          exact iff_of_true (.same (log.trans same)) (.inr (.inr (.inr (.inl none))))
        · refine Iff.trans (splicedIff snapshot (by rw [log,storeEntriesLog,if_neg none])) ?_
          simp [Appends,current,own leads,gap,none,ne_eq,not_true_eq_false,false_or]

theorem advancedCut {r : Raft} {more} (log : r.log = n.raft.log) (bare : Bare more) :
    ({n with raft := r.tryAdvanceCommit.1}.exec (r.tryAdvanceCommit.2 ++ more)).1.raft.log =
      if r.tryAdvanceCommit.1.compacts then n.raft.log.restore r.tryAdvanceCommit.1.hard.lastApplied
        (r.tryAdvanceCommit.1.log.termAt r.tryAdvanceCommit.1.hard.lastApplied) [] else n.raft.log := by
  rw [memSettle,← tryAdvanceCut]
  show (r.tryAdvanceCommit.2 ++ more).foldl cutLog r.tryAdvanceCommit.1.log = _
  rw [foldl_append,(bareLogFree bare).cut,(tryAdvanceUntouched r).log,log]

theorem advancedIff {p resp more} (leads : n.raft.soft.role = .leader) (bare : Bare more) :
    AppendOnly n ({n with raft := (n.raft.recordAck sender p resp).tryAdvanceCommit.1}.exec
      ((n.raft.recordAck sender p resp).tryAdvanceCommit.2 ++ more)).1 ↔
    ∃ i, n.raft.log.lastIndex ≤ i + n.raft.compactThreshold ∧
      (i ≤ max n.raft.hard.lastApplied n.raft.hard.commitIndex ∨
        i ≤ n.raft.log.lastIndex ∧ Counted (n.raft.recordAck sender p resp) i) := by
  have log := advancedCut (n := n) (r := n.raft.recordAck sender p resp) rfl bare
  have touched := tryAdvanceUntouched (n.raft.recordAck sender p resp)
  obtain ⟨k,advanced,_,applied,least,most⟩ := tryAdvanceCounters (n.raft.recordAck sender p resp)
  have compacts : (n.raft.recordAck sender p resp).tryAdvanceCommit.1.compacts = true ↔
      n.raft.compactThreshold < n.raft.log.lastIndex - max n.raft.hard.lastApplied k := by
    rw [compacts,touched.soft,touched.log,touched.threshold,applied]
    simp [Raft.recordAck,leads]
  have before : n.raft.hard.commitIndex ≤ k := least
  by_cases cut : (n.raft.recordAck sender p resp).tryAdvanceCommit.1.compacts = true
  · rw [if_pos cut] at log
    have short := compacts.mp cut
    refine iff_of_false (fun kept => ?_) ?_
    · have last := kept.last
      rw [log,restoredLast,applied] at last
      have last : n.raft.log.lastIndex ≤ max n.raft.hard.lastApplied k := last
      omega
    · rintro ⟨i,_,_ | ⟨inside,counted⟩⟩
      · omega
      · have := most i inside counted
        omega
  · rw [if_neg cut] at log
    have small := not_lt.mp fun more => cut (compacts.mpr more)
    refine iff_of_true (.same log) ⟨max n.raft.hard.lastApplied k,by omega,?_⟩
    rcases advanced.cases with same | ⟨_,inside,counted⟩
    · have same : k = n.raft.hard.commitIndex := same
      exact .inl (by omega)
    · rcases le_total n.raft.hard.lastApplied k with less | _
      · rw [max_eq_right less]
        exact .inr ⟨inside,counted⟩
      · exact .inl (by omega)

theorem appendResponseAppends {resp : AppendEntriesResp} (leads : n.raft.soft.role = .leader) :
    AppendOnly n ({n with raft := (n.raft.stepAppendResponse sender resp draw).1}.exec
      (n.raft.stepAppendResponse sender resp draw).2).1 ↔ Appends n (.step sender (.appendEntriesResp resp) draw) := by
  generalize stepped : n.raft.stepAppendResponse sender resp draw = out
  unfold stepAppendResponse at stepped
  split at stepped
  · rename_i newer
    subst stepped
    exact iff_of_true (.uncut (becomeFollowerStable n.raft _ none draw).log barePersist.uncut) (.inl newer)
  rename_i current
  rw [if_neg (not_not.mpr leads)] at stepped
  split at stepped
  · rename_i unknown
    subst stepped
    refine iff_of_true (.uncut rfl uncutNil) (.inr fun p known => ?_)
    rw [unknown] at known
    cases known
  · rename_i p known
    have counted := fun more bare => @advancedIff _ n sender p resp more leads bare
    simp only [Appends,current,known,Option.mem_def,Option.some.injEq,forall_eq',false_or]
    dsimp only at stepped
    split_ifs at stepped
    · subst stepped
      exact counted _ (appendToPeerBare _ sender)
    · subst stepped
      have whole := counted [] bareNil
      rwa [append_nil] at whole

theorem appendOnlyIff {m call} (done : callStep n call = some m) (leads : n.raft.soft.role = .leader)
    (stays : m.raft.soft.role = .leader) : AppendOnly n m ↔ Appends n call := by
  cases call with
  | tick ms draw =>
    simp only [callStep,RaftNode.tickMs,acceptedExec] at done
    cases Option.some.inj done
    exact iff_of_true (.uncut (tickStable n.raft ms draw).log (tickBare n.raft ms draw).uncut) trivial
  | propose =>
    simp only [callStep,RaftNode.propose,propose,leads,ne_eq,not_true_eq_false,if_false,RaftNode.execResult,
      acceptedExec] at done
    cases Option.some.inj done
    exact iff_of_true (ownAppends rfl (broadcastBare _)) trivial
  | readIndex =>
    simp only [callStep,RaftNode.readIndex,readIndex,leads,ne_eq,not_true_eq_false,if_false,RaftNode.execResult,
      acceptedExec] at done
    cases Option.some.inj done
    exact iff_of_true (ownAppends rfl (broadcastBare _)) trivial
  | step sender msg draw =>
    simp only [callStep,acceptedStep] at done
    cases Option.some.inj done
    rw [memSettle] at stays
    cases msg with
    | requestVote req =>
      exact iff_of_true (.uncut (requestVoteStable n.raft sender req draw).log (requestVoteBare n.raft sender req draw).uncut)
        trivial
    | requestVoteResp resp =>
      exact iff_of_true (.uncut (voteResponseStable n.raft sender resp draw).log (voteResponseBare n.raft sender resp draw).uncut)
        trivial
    | appendEntries => exact appendEntriesAppends leads stays
    | appendEntriesResp => exact appendResponseAppends leads
    | installSnapshot req =>
      simp only [RaftNode.dispatch,step,handleInstallSnapshot] at stays ⊢
      split at stays
      · rw [settle,(finishStanding _ req).soft] at stays
        cases stays
      · rename_i old
        rw [if_neg old]
        exact iff_of_true (.uncut rfl uncutNil) trivial
    | readIndex req =>
      exact iff_of_true (.uncut (readIndexStable n.raft sender req).log (readIndexBare n.raft sender req).uncut) trivial
    | installSnapshotResp | readIndexResp =>
      exact iff_of_true (.same (by rw [memSettle]; rfl)) trivial

end

def winTerm : List NodeCall := [.tick 1000 0,.step 2 (.requestVoteResp ⟨1,true⟩) 0]

theorem proposalAppends : ∃ n m, Execution.run callStep loneNode winTerm = some n ∧
    callStep n (.propose [97]) = some m ∧ (AppendOnly n m ↔ Appends n (.propose [97])) := by
  have leads : (run callStep loneNode winTerm).map (·.raft.soft.role) = some .leader := by decide +kernel
  have stays : ((run callStep loneNode winTerm).bind (callStep · (.propose [97]))).map (·.raft.soft.role) =
      some .leader := by decide +kernel
  obtain ⟨n,ran,role⟩ := Option.map_eq_some_iff.mp leads
  rw [ran,Option.bind_some] at stays
  obtain ⟨m,done,role'⟩ := Option.map_eq_some_iff.mp stays
  exact ⟨n,m,ran,done,appendOnlyIff done role role'⟩

/- Any answer makes a leader with 65 entries above its commit index forget them all. -/
theorem compactionForgets : (Execution.run callStep loneNode (winTerm ++ replicate 65 (.propose [97]))).map
        (fun n => (n.raft.soft.role,n.raft.hard.currentTerm,n.raft.log.lastIndex)) = some (.leader,1,65) ∧
      (Execution.run callStep loneNode (winTerm ++ replicate 65 (.propose [97]) ++
        [.step 2 (.appendEntriesResp ⟨1,true,0⟩) 0])).map
        (fun n => (n.raft.soft.role,n.raft.hard.currentTerm,n.raft.log.lastIndex)) = some (.leader,1,0) := by
  constructor <;> decide +kernel

end NoeDB.RaftLogChanges
