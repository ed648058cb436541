import NoeDB.RaftProgress

/-! A call on a plain log that no snapshot touches, said once in the terms the log
results need: what happened to log, commit index, standing and progress, and what
was sent. -/
namespace NoeDB.RaftReplication
open RaftTypes RaftCore RaftRuntime RaftCluster RaftEffects RaftPlain RaftSteps List Raft
open RaftPersistence RaftProgress RaftElection

def Ordinary (r : Raft) (m : NodeId × RpcMessage) : Prop :=
  match m.2 with
  | .requestVote _ => False
  | .requestVoteResp resp => resp.voteGranted = false
  | .appendEntries req => r.soft.role = .leader ∧ m.1 ≠ r.config.id ∧
      req = r.appendReq (r.nextFor m.1)
  | .appendEntriesResp resp => resp.success = false
  | _ => True

def AllOrdinary (r : Raft) (out : Outbound) : Prop := ∀ m ∈ out, Ordinary r m

def leaderProgress (r : Raft) : NodeId → Option Progress :=
  Raft.freshProgress r.config.id r.config.voters (indexNext r.log.lastIndex)

theorem freshProgressAt (id voters next p) :
    freshProgress id voters next p = if p ∈ voters ∧ p ≠ id then some ⟨next,0⟩ else none := by
  have fold : ∀ progress : NodeId → Option Progress, voters.foldl (fun progress peer =>
      if peer ≠ id then Function.update progress peer (some ⟨next,0⟩) else progress) progress p =
      if p ∈ voters ∧ p ≠ id then some ⟨next,0⟩ else progress p := by
    induction voters with
    | nil => simp
    | cons v _ ih =>
      intro _
      rw [foldl_cons,ih]
      by_cases same : p = v
      · subst same
        by_cases self : p = id <;> simp [self]
      · by_cases self : v = id
        · subst self
          simp [same]
        · simp [self,same]
  exact fold (fun _ => none)

inductive CleanCall (r : Raft) (incoming : Option (NodeId × RpcMessage)) (r' : Raft)
    (out : Outbound) (cmds : List Command) : Prop where
  | idle (stable : Stable r r') (term : r'.hard.currentTerm = r.hard.currentTerm)
      (role : r'.soft.role = r.soft.role) (votes : r'.votes = r.votes)
      (progress : r'.progress = r.progress) (sent : AllOrdinary r' out) (none : cmds = [])
  | follow (stable : Stable r r') (term : r.hard.currentTerm ≤ r'.hard.currentTerm)
      (role : r'.soft.role = .follower) (sent : AllOrdinary r' out) (none : cmds = [])
  | grant (sender : NodeId) (req : RequestVoteReq)
      (cause : incoming = some (sender,.requestVote req)) (stable : Stable r r')
      (up : r.hard.currentTerm ≤ req.term) (term : r'.hard.currentTerm = req.term)
      (upToDate : r.logIsUpToDate req.lastLogIndex req.lastLogTerm = true)
      (standing : r'.soft.role = .follower ∨
        (r.hard.currentTerm = req.term ∧ r'.soft.role = r.soft.role ∧ r'.votes = r.votes ∧
          r'.progress = r.progress))
      (sent : out = [(sender,.requestVoteResp ⟨req.term,true⟩)]) (none : cmds = [])
  | campaign (alone : incoming = .none) (was : r.soft.role ≠ .leader) (stable : Stable r r')
      (term : r'.hard.currentTerm = termNext r.hard.currentTerm)
      (votes : r'.votes = {r.config.id})
      (role : r'.soft.role = .candidate ∨ (r'.soft.role = .leader ∧ r.config.quorum ≤ 1 ∧
        r'.progress = leaderProgress r))
      (sent : ∀ m ∈ out, m.2 = .requestVote (campaignReq r) ∨ Ordinary r' m) (none : cmds = [])
  | count (sender : NodeId) (resp : RequestVoteResp)
      (cause : incoming = some (sender,.requestVoteResp resp)) (was : r.soft.role = .candidate)
      (current : resp.term = r.hard.currentTerm) (stable : Stable r r')
      (term : r'.hard.currentTerm = r.hard.currentTerm)
      (votes : r'.votes = (r.countVote sender resp).votes)
      (role : r'.soft.role = .candidate ∨ (r'.soft.role = .leader ∧
        r.config.quorum ≤ r'.votes.card ∧ r'.progress = leaderProgress r))
      (sent : AllOrdinary r' out) (none : cmds = [])
  | accept (sender : NodeId) (req : AppendEntriesReq)
      (cause : incoming = some (sender,.appendEntries req))
      (up : r.hard.currentTerm ≤ req.term) (term : r'.hard.currentTerm = req.term)
      (standing : r'.soft.role = .follower ∨ (r.hard.currentTerm = req.term ∧
        r'.soft.role = r.soft.role ∧ r'.votes = r.votes ∧
        (r.soft.role = .leader → req.leaderId = r.config.id)))
      (fits : r.log.termAt req.prevLogIndex = req.prevLogTerm)
      (log : r'.log.entries = if req.entries = [] then r.log.entries
        else r.log.entries.take (req.prevLogIndex+1) ++ req.entries)
      (commit : (r'.hard.commitIndex = r.hard.commitIndex ∧
          r'.hard.lastApplied = r.hard.lastApplied ∧ cmds = []) ∨
        (r.hard.commitIndex < req.leaderCommit ∧
          r'.hard.commitIndex = min req.leaderCommit r'.log.lastIndex ∧
          r'.log.termAt r'.hard.commitIndex = req.term ∧
          r'.hard.lastApplied = max r.hard.lastApplied r'.hard.commitIndex ∧
          cmds = commandsOf (between r'.log r.hard.lastApplied r'.hard.commitIndex)))
      (sent : out = [(sender,.appendEntriesResp ⟨req.term,true,r'.log.lastIndex⟩)])
  | ack (sender : NodeId) (resp : AppendEntriesResp) (p : Progress)
      (cause : incoming = some (sender,.appendEntriesResp resp))
      (leads : r.soft.role = .leader) (role : r'.soft.role = .leader)
      (current : resp.term ≤ r.hard.currentTerm)
      (term : r'.hard.currentTerm = r.hard.currentTerm) (log : r'.log = r.log)
      (known : r.progress sender = some p)
      (progress : r'.progress = Function.update r.progress sender (some (Raft.ackProgress p resp)))
      (commit : Advanced (r.recordAck sender p resp) r'.hard.commitIndex)
      (applied : r'.hard.lastApplied = max r.hard.lastApplied r'.hard.commitIndex)
      (sent : AllOrdinary r' out)
      (commands : cmds = commandsOf (between r.log r.hard.lastApplied r'.hard.commitIndex))
  | own (cmd : Command) (alone : incoming = .none) (leads : r.soft.role = .leader)
      (role : r'.soft.role = .leader)
      (hard : r'.hard = r.hard) (log : r'.log.entries = r.log.entries ++ [⟨r.hard.currentTerm,cmd⟩])
      (progress : r'.progress = r.progress) (sent : AllOrdinary r' out) (none : cmds = [])

theorem ordinaryNil (r) : AllOrdinary r [] := by
  intro m mem
  cases mem

theorem AllOrdinary.append (left : AllOrdinary r a) (right : AllOrdinary r b) : AllOrdinary r (a ++ b) := by
  intro m mem
  rcases mem_append.mp mem with h | h
  · exact left m h
  · exact right m h

theorem AllOrdinary.cons (head : Ordinary r m) (tail : AllOrdinary r out) : AllOrdinary r (m :: out) := by
  intro x mem
  rcases mem_cons.mp mem with same | rest
  · exact same ▸ head
  · exact tail x rest

theorem appendToPeerOrdinary (r) (other : peer ≠ r.config.id) : AllOrdinary r (sendsOf (r.appendToPeer peer)) := by
  intro m mem
  obtain ⟨leads,target,eq | eq⟩ := appendToPeerSent r peer mem
  · simp [Ordinary,eq]
  · simp only [Ordinary,eq,target]
    exact ⟨leads,other,trivial⟩

theorem broadcastOrdinary (r) : AllOrdinary r (sendsOf r.broadcastAppend) := by
  intro m mem
  obtain ⟨_,other,inner⟩ := broadcastSent r mem
  exact appendToPeerOrdinary r other m inner

theorem tickClean (r ms draw) : CleanCall r none (r.tick ms draw).1 (sendsOf (r.tick ms draw).2) [] := by
  have stable := tickStable r ms draw
  unfold tick at stable ⊢
  by_cases leads : r.soft.role = .leader
  · simp only [if_pos leads] at stable ⊢
    split
    · rename_i due
      simp only [if_pos due] at stable
      exact .idle stable rfl rfl rfl rfl (broadcastOrdinary _) rfl
    · rename_i due
      simp only [if_neg due] at stable
      exact .idle stable rfl rfl rfl rfl (ordinaryNil _) rfl
  · simp only [if_neg leads] at stable ⊢
    split
    · rename_i due
      simp only [if_pos due] at stable
      unfold startElection at stable ⊢
      rw [if_neg leads,becomeCandidateEq] at stable
      rw [if_neg leads,becomeCandidateEq]
      by_cases single : 1 ≥ r.config.quorum
      · rw [if_pos single] at stable ⊢
        refine .campaign rfl leads stable rfl rfl (.inr ⟨rfl,single,rfl⟩) ?_ rfl
        intro m mem
        rw [sendsOfAppend] at mem
        rcases mem_append.mp mem with asks | leader
        · exact .inl (campaignSent r asks).2.2
        · exact .inr (broadcastOrdinary (campaigning r draw).becomeLeader.1 m leader)
      · rw [if_neg single] at stable ⊢
        exact .campaign rfl leads stable rfl rfl (.inl rfl) (fun m mem => .inl (campaignSent r mem).2.2) rfl
    · rename_i due
      simp only [if_neg due] at stable
      exact .idle stable rfl rfl rfl rfl (ordinaryNil _) rfl

theorem becomeFollowerClean (r term leader draw incoming) (up : r.hard.currentTerm ≤ term) (sent : AllOrdinary (r.becomeFollower term leader draw).1 out) :
    CleanCall r incoming (r.becomeFollower term leader draw).1 out [] := by
  refine .follow (becomeFollowerStable r term leader draw) ?_ rfl sent rfl
  unfold becomeFollower resetElectionTimer
  split
  · exact up
  · exact Nat.le_refl _

theorem requestVoteClean (r sender req draw) :
    CleanCall r (some (sender,.requestVote req)) (r.handleRequestVote sender req draw).1
      (outputs sender (r.handleRequestVote sender req draw).2.1 (r.handleRequestVote sender req draw).2.2) [] := by
  by_cases old : req.term < r.hard.currentTerm
  · unfold handleRequestVote
    rw [if_pos old]
    exact .idle (.refl r) rfl rfl rfl rfl ((ordinaryNil r).cons rfl) rfl
  · have up : r.hard.currentTerm ≤ req.term := by omega
    have stable := observeStable r req.term draw
    obtain ⟨term,log,standing⟩ := observeFacts r req.term draw up
    have silent : sendsOf (r.observeTerm req.term draw).2 = [] := by
      unfold observeTerm
      split <;> rfl
    unfold handleRequestVote
    rw [if_neg old]
    dsimp only
    split
    · rename_i may
      have upToDate : r.logIsUpToDate req.lastLogIndex req.lastLogTerm = true := by
        have both := (Bool.and_eq_true _ _ ▸ may : _ ∧ _).2
        simpa only [logIsUpToDate,log] using both
      refine .grant sender req rfl ⟨stable.commit,stable.applied,stable.log⟩ up term upToDate ?_ ?_ rfl
      · rcases standing with ⟨_,role,_⟩ | ⟨same,current⟩
        · exact .inl role
        · refine .inr ⟨current,?_,?_,?_⟩ <;> rw [same] <;> rfl
      · simp only [outputs,sendsOfAppend,silent,term]
        rfl
    · simp only [outputs,silent]
      rcases standing with ⟨_,role,_⟩ | ⟨same,_⟩
      · exact .follow stable (by omega) role ((ordinaryNil _).cons rfl) rfl
      · rw [same]
        exact .idle (.refl r) rfl rfl rfl rfl ((ordinaryNil r).cons rfl) rfl

theorem voteResponseClean (r sender resp draw) :
    CleanCall r (some (sender,.requestVoteResp resp)) (r.stepVoteResponse sender resp draw).1
      (sendsOf (r.stepVoteResponse sender resp draw).2) [] := by
  have stable := voteResponseStable r sender resp draw
  unfold stepVoteResponse at stable ⊢
  by_cases newer : resp.term > r.hard.currentTerm
  · rw [if_pos newer]
    exact becomeFollowerClean r resp.term none draw _ (by omega) (ordinaryNil _)
  · rw [if_neg newer] at stable ⊢
    by_cases late : r.soft.role ≠ .candidate ∨ resp.term ≠ r.hard.currentTerm
    · rw [if_pos late]
      exact .idle (.refl r) rfl rfl rfl rfl (ordinaryNil r) rfl
    · rw [if_neg late] at stable ⊢
      obtain ⟨was,current⟩ := voteTimely late
      rw [countVoteKept] at stable ⊢
      dsimp only at stable ⊢
      split
      · rename_i won
        rw [if_pos won] at stable
        exact .count sender resp rfl was current stable rfl rfl (.inr ⟨rfl,won,rfl⟩)
          (broadcastOrdinary (becomeLeader {r with votes := (r.countVote sender resp).votes}).1) rfl
      · rename_i lost
        rw [if_neg lost] at stable
        exact .count sender resp rfl was current stable rfl rfl (.inl was) (ordinaryNil _) rfl

theorem readIndexClean (r : Raft) (sender req incoming) : CleanCall r incoming (r.handleReadIndex sender req).1
      (outputs sender (r.handleReadIndex sender req).2.1 (r.handleReadIndex sender req).2.2) [] := by
  unfold handleReadIndex
  split
  · exact .idle (.refl r) rfl rfl rfl rfl (ordinaryNil r) rfl
  · refine .idle ⟨rfl,rfl,rfl⟩ rfl rfl rfl rfl ?_ rfl
    simp only [outputs,sendsOfAppend]
    refine AllOrdinary.cons trivial (AllOrdinary.append ?_ (ordinaryNil _))
    exact broadcastOrdinary (r.pushRead req.readId r.log.lastIndex)

theorem applyActionsApplies (cmds) : appliesOf (applyActions cmds []) = cmds := by
  rw [applyPlainActions]
  split
  · rename_i empty
    rw [empty]
    rfl
  · simp [appliesOf]

theorem freeUncut (free : LogFree actions) : Uncut actions := by
  intro a mem
  cases a with
  | snapshot snap =>
    have same := (free _ mem ⟨replicate (snap.index+2) ⟨0,[]⟩,by simp⟩).2
    have lengths := congrArg (fun log => log.entries.length) same
    simp [cutLog] at lengths
  | _ => rfl

theorem applyActionsUncut (cmds) : Uncut (applyActions cmds []) := by
  intro a mem
  rw [applyPlainActions] at mem
  split at mem
  · cases mem
  · rcases mem_cons.mp mem with is | mem
    · rw [is]
      rfl
    · rw [mem_singleton.mp mem]
      rfl

theorem storeEntriesLog (r : Raft) (req) : (r.storeEntries req).1.log.entries = if req.entries = [] then r.log.entries
      else r.log.entries.take (req.prevLogIndex+1) ++ req.entries := by
  unfold storeEntries
  by_cases none : req.entries = []
  · simp [none]
  · simp [none]

theorem storeApplies (r : Raft) (req) : appliesOf (r.storeEntries req).2 = [] := by
  unfold storeEntries
  split <;> rfl

theorem acceptFacts (r : Raft) (req draw) (up : r.hard.currentTerm ≤ req.term) :
    (r.acceptLeader req draw).1.hard.currentTerm = req.term ∧ ((r.acceptLeader req draw).1.soft.role = .follower ∨
      (r.hard.currentTerm = req.term ∧ (r.acceptLeader req draw).1.soft.role = r.soft.role ∧
        (r.acceptLeader req draw).1.votes = r.votes ∧ (r.acceptLeader req draw).1.progress = r.progress ∧
        (r.soft.role = .leader → req.leaderId = r.config.id))) := by
  unfold acceptLeader
  split
  · rename_i steps
    refine ⟨?_,.inl rfl⟩
    unfold becomeFollower resetElectionTimer
    split
    · rfl
    · show r.hard.currentTerm = req.term
      omega
  · rename_i stays
    have same : r.hard.currentTerm = req.term := by
      by_contra differs
      exact stays (.inl (by omega))
    refine ⟨same,.inr ⟨same,rfl,rfl,rfl,?_⟩⟩
    intro leads
    by_contra other
    exact stays (.inr ⟨same.symm,leads,other⟩)

section
variable [Bincode]

theorem appendEntriesClean (plain : PlainLog r.log) (sender draw) (entries : ∀ e ∈ req.entries, PlainEntry e) :
    CleanCall r (some (sender,.appendEntries req)) (r.handleAppendEntries sender req draw).1
      (outputs sender (r.handleAppendEntries sender req draw).2.1 (r.handleAppendEntries sender req draw).2.2)
      (appliesOf (r.handleAppendEntries sender req draw).2.2) := by
  have stable := acceptStable r req draw
  have silent := acceptSends r req draw
  have applies := (acceptBare r req draw).applies
  unfold handleAppendEntries
  by_cases old : req.term < r.hard.currentTerm
  · rw [if_pos old]
    exact .idle (.refl r) rfl rfl rfl rfl ((ordinaryNil r).cons rfl) rfl
  · rw [if_neg old]
    have up : r.hard.currentTerm ≤ req.term := by omega
    obtain ⟨term,standing⟩ := acceptFacts r req draw up
    dsimp only [Raft.replicate]
    rw [stable.log]
    by_cases gap : r.log.termAt req.prevLogIndex ≠ req.prevLogTerm
    · rw [if_pos gap]
      simp only [outputs,silent]
      rcases standing with role | ⟨same,role,votes,progress,_⟩
      · exact .follow stable (by omega) role ((ordinaryNil _).cons rfl) applies
      · exact .idle stable (term.trans same.symm) role votes progress ((ordinaryNil _).cons rfl) applies
    · rw [if_neg gap]
      have fits : r.log.termAt req.prevLogIndex = req.prevLogTerm := by
        by_contra h
        exact gap h
      have accepted := acceptPlain plain req draw
      have stored := storePlain accepted.log entries
      have hard := storeHard (r.acceptLeader req draw).1 req
      have log := storeEntriesLog (r.acceptLeader req draw).1 req
      have standing' := (storeStanding (r.acceptLeader req draw).1 req).trans (followCommitStanding _ req)
      have kept := (followCommitCounters ((r.acceptLeader req draw).1.storeEntries req).1 req).1
      rw [stable.log] at log
      have answered : ((((r.acceptLeader req draw).1.storeEntries req).1.followCommit req).1.hard.currentTerm) =
          req.term := standing'.term.trans term
      refine .accept sender req rfl up answered ?_ fits ?_ ?_ ?_
      · rw [standing'.soft,standing'.votes]
        rcases standing with role | ⟨same,role,votes,_,mine⟩
        · exact .inl role
        · exact .inr ⟨same,role,votes,mine⟩
      · rw [kept]
        exact log
      · simp only [appliesOfAppend,applies,storeApplies,nil_append]
        rcases followCommitPlain stored.log req with eq | ⟨k,is,more,own,eq⟩
        · rw [eq]
          exact .inl ⟨by rw [hard,stable.commit],by rw [hard,stable.applied],rfl⟩
        · rw [eq]
          rw [hard,stable.commit] at more
          refine .inr ⟨more,is,own,?_,?_⟩
          · show max ((r.acceptLeader req draw).1.storeEntries req).1.hard.lastApplied k = _
            rw [hard,stable.applied]
            rfl
          · rw [appliesOfAppend,applyActionsApplies,hard,stable.applied]
            rfl
      · simp [outputs,sendsOfAppend,silent,storeSends,followCommitSends,append_nil,answered]

/- The deliveries that leave the log to the entries: no snapshot is installed, and
no leader compacts when it counts an acknowledgement. -/
def Uncompacted (r : Raft) : RpcMessage → Prop
  | .installSnapshot req => req.term < r.hard.currentTerm
  | .appendEntriesResp resp => r.soft.role = .leader → resp.term ≤ r.hard.currentTerm →
      r.log.lastIndex ≤ r.hard.lastApplied + r.compactThreshold
  | _ => True

theorem tryAdvanceSmall (plain : PlainLog r.log)
    (small : r.log.lastIndex ≤ r.hard.lastApplied + r.compactThreshold) : ∃ k actions, Advanced r k ∧
      r.tryAdvanceCommit = ((committed r k).tryConfirmReads.1,actions) ∧ Uncut actions ∧ sendsOf actions = [] ∧
      appliesOf actions = commandsOf (between r.log r.hard.lastApplied k) := by
  obtain ⟨k,before,advanced,silent,eq⟩ := tryAdvancePlain plain
  have whole : (committed r k).compacts = false := by
    have large : r.log.lastIndex - max r.hard.lastApplied k ≤ r.compactThreshold := by omega
    simp only [compacts,Bool.and_eq_false_iff,decide_eq_false_iff_not]
    exact .inr (Nat.not_lt.mpr large)
  have bare : Bare before := fun a mem => .inl (silent a mem)
  simp only [whole,Bool.false_eq_true,if_false,append_nil] at eq
  refine ⟨k,_,advanced,eq,bare.uncut.append (applyActionsUncut _),?_,?_⟩
  · have none := tryAdvanceSends r
    rw [eq] at none
    exact none
  · rw [appliesOfAppend,bare.applies,applyActionsApplies,nil_append]

def Peers (r : Raft) : Prop :=
  r.soft.role = .leader → ∀ s p, r.progress s = some p → s ≠ r.config.id

theorem appendResponseClean (plain : PlainLog r.log) (draw)
    (peers : Peers r) (calm : Uncompacted r (.appendEntriesResp resp)) :
    CleanCall r (some (sender,.appendEntriesResp resp)) (r.stepAppendResponse sender resp draw).1
      (sendsOf (r.stepAppendResponse sender resp draw).2) (appliesOf (r.stepAppendResponse sender resp draw).2) ∧
    Uncut (r.stepAppendResponse sender resp draw).2 := by
  unfold stepAppendResponse
  by_cases newer : resp.term > r.hard.currentTerm
  · rw [if_pos newer]
    exact ⟨becomeFollowerClean r resp.term none draw _ (by omega) (ordinaryNil _),barePersist.uncut⟩
  · rw [if_neg newer]
    by_cases follows : r.soft.role ≠ .leader
    · rw [if_pos follows]
      exact ⟨.idle (.refl r) rfl rfl rfl rfl (ordinaryNil r) rfl,uncutNil⟩
    · rw [if_neg follows]
      have leads : r.soft.role = .leader := by
        by_contra h
        exact follows h
      cases known : r.progress sender with
      | none => exact ⟨.idle (.refl r) rfl rfl rfl rfl (ordinaryNil r) rfl,uncutNil⟩
      | some p =>
        have recorded : PlainLog (r.recordAck sender p resp).log := plain
        obtain ⟨k,_,advanced,eq,uncut,silent,applies⟩ := tryAdvanceSmall recorded (calm leads (by omega))
        have call : ∀ {out}, AllOrdinary ((committed (r.recordAck sender p resp) k).tryConfirmReads.1) out →
            CleanCall r (some (sender,.appendEntriesResp resp))
              (committed (r.recordAck sender p resp) k).tryConfirmReads.1 out
              (commandsOf (between r.log r.hard.lastApplied k)) :=
          fun ordinary => .ack sender resp p rfl leads leads (by omega) rfl rfl known rfl advanced rfl ordinary rfl
        simp only [eq]
        split_ifs
        · have bare := appendToPeerBare (committed (r.recordAck sender p resp) k).tryConfirmReads.1 sender
          refine ⟨?_,uncut.append bare.uncut⟩
          rw [sendsOfAppend,silent,nil_append,appliesOfAppend,bare.applies,append_nil, applies]
          exact call (appendToPeerOrdinary _ (peers leads sender p known))
        · refine ⟨?_,uncut⟩
          rw [silent,applies]
          exact call (ordinaryNil _)

theorem appendEntriesUncut (r : Raft) (sender req draw) : Uncut (r.handleAppendEntries sender req draw).2.2 := by
  have accepted := (acceptBare r req draw).uncut
  unfold handleAppendEntries
  split
  · exact uncutNil
  · dsimp only [Raft.replicate]
    split
    · exact accepted
    · exact (accepted.append (storeUncut _ req)).append (freeUncut (followCommitLogFree _ req))

theorem dispatchClean {r : Raft} (plain : PlainLog r.log) (draw)
    (peers : Peers r) (incoming : PlainMsg msg) (calm : Uncompacted r msg) :
    CleanCall r (some (sender,msg)) (RaftNode.dispatch r sender msg draw).1
      (outputs sender (RaftNode.dispatch r sender msg draw).2.1 (RaftNode.dispatch r sender msg draw).2.2)
      (appliesOf (RaftNode.dispatch r sender msg draw).2.2) ∧ Uncut (RaftNode.dispatch r sender msg draw).2.2 := by
  cases msg with
  | requestVote req =>
    have bare := requestVoteBare r sender req draw
    simp only [RaftNode.dispatch,step,bare.applies]
    exact ⟨requestVoteClean r sender req draw,bare.uncut⟩
  | requestVoteResp resp =>
    have bare := voteResponseBare r sender resp draw
    simp only [RaftNode.dispatch,bare.applies]
    exact ⟨voteResponseClean r sender resp draw,bare.uncut⟩
  | appendEntries req =>
    exact ⟨appendEntriesClean plain sender draw incoming,appendEntriesUncut r sender req draw⟩
  | appendEntriesResp => exact appendResponseClean plain draw peers calm
  | installSnapshot req =>
    have stale : ¬ req.term ≥ r.hard.currentTerm := Nat.not_le.mpr calm
    simp only [RaftNode.dispatch,step,handleInstallSnapshot,if_neg stale]
    exact ⟨.idle (.refl r) rfl rfl rfl rfl ((ordinaryNil r).cons trivial) rfl,uncutNil⟩
  | installSnapshotResp | readIndexResp =>
    refine ⟨.idle (.refl r) rfl rfl rfl rfl ((ordinaryNil r).cons trivial) rfl,?_⟩
    intro a mem
    rw [mem_singleton.mp mem]
    rfl
  | readIndex req =>
    have bare := readIndexBare r sender req
    simp only [RaftNode.dispatch,step,bare.applies]
    exact ⟨readIndexClean r sender req _,bare.uncut⟩

structure CleanInput (r : Raft) (e : Event) : Prop where
  log : PlainLog r.log
  peers : Peers r
  event : PlainEvent e
  message : ∀ s m, incoming e = some (s,m) → PlainMsg m ∧ Uncompacted r m

theorem coreClean (core : CoreCall r e r' actions out) (input : CleanInput r e) :
    CleanCall r (incoming e) r' out (appliesOf actions) ∧ settle r' actions = r' := by
  have own : ∀ cmd, Uncut [r.persistOwn cmd] := by
    intro cmd a mem
    cases mem_singleton.mp mem
    rfl
  have silent : ∀ cmd {more}, Bare more → appliesOf ([r.persistOwn cmd] ++ more) = [] := by
    intro _ _ bare
    rw [appliesOfAppend,bare.applies]
    rfl
  cases core with
  | tick =>
    have bare := tickBare r
    rw [(bare _ _).applies]
    exact ⟨tickClean r _ _,settleUncut (bare _ _).uncut _⟩
  | deliver =>
    obtain ⟨plainMsg,calm⟩ := input.message _ _ rfl
    obtain ⟨clean,uncut⟩ := dispatchClean input.log _ input.peers plainMsg calm
    exact ⟨clean,settleUncut uncut _⟩
  | propose leads =>
    rw [silent _ (broadcastBare _)]
    refine ⟨.own _ rfl leads leads rfl rfl rfl ?_ rfl, settleUncut ((own _).append (broadcastBare _).uncut) _⟩
    exact (ordinaryNil _).append (broadcastOrdinary _)
  | readIndex leads =>
    rw [silent _ (broadcastBare _)]
    refine ⟨.own [] rfl leads leads rfl rfl rfl ?_ rfl, settleUncut ((own _).append (broadcastBare _).uncut) _⟩
    exact (ordinaryNil _).append (broadcastOrdinary _)
  | proposeConfChange => exact input.event.elim

end

instance (r) : (m : RpcMessage) → Decidable (Uncompacted r m)
  | .installSnapshot _ => inferInstanceAs (Decidable (_ < _))
  | .appendEntriesResp _ => inferInstanceAs (Decidable (_ → _ → _ ≤ _))
  | .requestVote _ | .requestVoteResp _ | .appendEntries _ | .installSnapshotResp _ | .readIndex _
  | .readIndexResp _ => isTrue trivial

def SnapshotFree (c : Cluster MemStorage) : Event → Prop
  | .deliver env _ => ∀ n ∈ c.nodes env.target, Uncompacted n.raft env.msg
  | _ => True

instance (c) : (e : Event) → Decidable (SnapshotFree c e)
  | .deliver .. => inferInstanceAs (Decidable (∀ _ ∈ _, Uncompacted _ _))
  | .tick .. | .propose .. | .readIndex .. | .proposeConfChange .. | .request .. | .crash .. => isTrue trivial

section
variable [Bincode]

@[mk_iff]
structure LogStep (c : Cluster MemStorage) (e : Event) : Prop where
  calm : CrashFree e
  fixed : FixedStep c e
  whole : SnapshotFree c e

instance (c e) : Decidable (LogStep c e) := decidable_of_iff' _ (logStep_iff c e)

inductive CleanStep (c : Cluster MemStorage) (e : Event) (c' : Cluster MemStorage) : Prop where
  | call {n n' : MemNode} {out cmds} (found : c.nodes (actor e) = some n)
      (received : ∀ s m, incoming e = some (s,m) → ⟨s,actor e,m⟩ ∈ c.net)
      (room : Room n.raft (incoming e)) (config : n'.raft.config = n.raft.config)
      (clean : CleanCall n.raft (incoming e) n'.raft out cmds)
      (applied : n'.applied = n.applied ++ cmds) (next : c' = c.put (actor e) n' out)
  | quiet (next : c' = c)
  | request {client target req} (asks : e = .request client target req)
      (next : c' = {c with net := c.net ++ [⟨client,target,.readIndex req⟩]})

theorem cleanStep (inv : Fixed voters c) (peers : ∀ {id n}, c.nodes id = some n → Peers n.raft) (ok : LogStep c e)
    (step : c.step e = some c') : CleanStep c e c' := by
  cases stepCases step with
  | @call n r' actions out sent found received core posted next =>
    have log := (inv.nodes found).confined.log
    have plain : ∀ s m, incoming e = some (s,m) → PlainMsg m := fun s m arrives => inv.plain _ (received s m arrives)
    have whole : ∀ s m, incoming e = some (s,m) → Uncompacted n.raft m := by
      intro s m arrives
      have free := ok.whole
      cases core with
      | deliver =>
        cases arrives
        exact free n found
      | _ => cases arrives
    obtain ⟨clean,still⟩ := coreClean core
      ⟨log,peers found,ok.fixed.1,fun s m arrives => ⟨plain s m arrives,whole s m arrives⟩⟩
    have raft : ({n with raft := r'}.exec actions).1.raft = r' := (memSettle n r' actions).trans still
    have sentAll : sent = out := by
      rcases posted with ⟨all,_⟩ | ⟨_,_,failed⟩
      · exact all
      · rw [(memExec {n with raft := r'} actions).1] at failed
        cases failed
    subst sentAll
    refine .call found received (roomOf ok.fixed.2 found core) ?_ ?_
      (memExec {n with raft := r'} actions).2.applied next
    · rw [raft]
      exact (corePlain core log plain ok.fixed.1).1.config
    · rw [raft]
      exact clean
  | refused _ _ _ next => exact .quiet next
  | request asks next => exact .request asks next
  | crash stops =>
    subst stops
    exact ok.calm.elim

end

end NoeDB.RaftReplication
