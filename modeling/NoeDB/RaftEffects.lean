import NoeDB.RaftRuntime

/-! What one call of the core can do, stated once per function. Everything about
elections, the log and the commit index is derived from these statements. -/
namespace NoeDB.RaftEffects
open RaftTypes RaftCore RaftRuntime List Raft

def sendsOf (actions : List Action) : Outbound :=
  actions.filterMap (fun a => match a with
    | .send target msg => some (target,msg)
    | _ => none)

@[simp] theorem sendsOfNil : sendsOf [] = [] := rfl

@[simp] theorem sendsOfAppend (a b) : sendsOf (a ++ b) = sendsOf a ++ sendsOf b := by
  simp [sendsOf]

@[simp] theorem sendsOfSend (target msg rest) : sendsOf (.send target msg :: rest) = (target,msg) :: sendsOf rest := rfl

@[simp] theorem sendsOfPersist (rest) : sendsOf (.persistHardState :: rest) = sendsOf rest := rfl

@[simp] theorem sendsOfPersistLog (i es rest) : sendsOf (.persistLog i es :: rest) = sendsOf rest := rfl

@[simp] theorem sendsOfApply (cmds rest) : sendsOf (.apply cmds :: rest) = sendsOf rest := rfl

@[simp] theorem sendsOfSnapshot (snap rest) : sendsOf (.snapshot snap :: rest) = sendsOf rest := rfl

structure Untouched (r r' : Raft) : Prop where
  term : r'.hard.currentTerm = r.hard.currentTerm
  vote : r'.hard.votedFor = r.hard.votedFor
  soft : r'.soft = r.soft
  log : r'.log = r.log
  votes : r'.votes = r.votes
  id : r'.config.id = r.config.id
  threshold : r'.compactThreshold = r.compactThreshold

namespace Untouched

theorem refl (r) : Untouched r r := ⟨rfl,rfl,rfl,rfl,rfl,rfl,rfl⟩

theorem trans (ab : Untouched a b) (bc : Untouched b c) : Untouched a c :=
  ⟨bc.term.trans ab.term,bc.vote.trans ab.vote,bc.soft.trans ab.soft,bc.log.trans ab.log,
    bc.votes.trans ab.votes,bc.id.trans ab.id,bc.threshold.trans ab.threshold⟩

end Untouched

theorem setCommitUntouched (r index) : Untouched r (r.setCommit index) := ⟨rfl,rfl,rfl,rfl,rfl,rfl,rfl⟩

theorem confirmUntouched (r) : Untouched r r.tryConfirmReads.1 := ⟨rfl,rfl,rfl,rfl,rfl,rfl,rfl⟩

theorem rebuildUntouched (r) : Untouched r r.rebuildProgress ∧ r.rebuildProgress.hard = r.hard := by
  unfold rebuildProgress
  split <;> exact ⟨⟨rfl,rfl,rfl,rfl,rfl,rfl,rfl⟩,rfl⟩

theorem confChangeUntouched (r : Raft) (cc) : Untouched r (r.applyConfChange cc).1 ∧
    (r.applyConfChange cc).1.hard = r.hard := by
  cases cc with
  | addVoter id =>
    have changed : Untouched r (r.addVoter id) := ⟨rfl,rfl,rfl,rfl,rfl,rfl,rfl⟩
    obtain ⟨rebuilt,hard⟩ := rebuildUntouched (r.addVoter id)
    simp only [applyConfChange]
    split
    · exact ⟨.refl r,rfl⟩
    · exact ⟨changed.trans rebuilt,hard⟩
  | removeVoter id =>
    have changed : Untouched r (r.removeVoter id) := ⟨rfl,rfl,rfl,rfl,rfl,rfl,rfl⟩
    obtain ⟨rebuilt,hard⟩ := rebuildUntouched (r.removeVoter id)
    simp only [applyConfChange]
    split
    · exact ⟨changed.trans rebuilt,hard⟩
    · exact ⟨.refl r,rfl⟩

theorem confChangeActions (r : Raft) (cc) : (r.applyConfChange cc).2 = [.persistHardState] := by
  cases cc <;> simp only [applyConfChange] <;> split <;> rfl

theorem commitAtUntouched (term acc index) :
    Untouched acc.1 (commitAt term acc index).1 ∧ sendsOf (commitAt term acc index).2 = sendsOf acc.2 := by
  unfold commitAt
  split
  · exact ⟨.refl _,rfl⟩
  · split
    · exact ⟨setCommitUntouched _ _,by simp⟩
    · exact ⟨.refl _,rfl⟩

theorem advanceFold (term) (indices : List Nat) (acc : Raft × List Action) :
    Untouched acc.1 (indices.foldl (commitAt term) acc).1 ∧
    sendsOf (indices.foldl (commitAt term) acc).2 = sendsOf acc.2 := by
  induction indices generalizing acc with
  | nil => exact ⟨.refl _,rfl⟩
  | cons index _ ih =>
    obtain ⟨first,silent⟩ := commitAtUntouched term acc index
    obtain ⟨same,quiet⟩ := ih (commitAt term acc index)
    exact ⟨first.trans same,quiet.trans silent⟩

theorem advanceSends (r : Raft) : sendsOf r.advanceLoop.2 = [] := (advanceFold _ _ (r,[])).2

section
variable [Bincode]

theorem applyEntryUntouched (r : Raft) (cmds actions entry) : Untouched r (r.applyEntry cmds actions entry).1 ∧
    (r.applyEntry cmds actions entry).1.hard = r.hard ∧
    sendsOf (r.applyEntry cmds actions entry).2.2 = sendsOf actions := by
  cases entry with
  | none => exact ⟨.refl r,rfl,rfl⟩
  | some =>
    simp only [applyEntry]
    split
    · obtain ⟨same,hard⟩ := confChangeUntouched r _
      exact ⟨same,hard,by simp [confChangeActions]⟩
    · split <;> exact ⟨.refl r,rfl,rfl⟩

theorem applyLoopUntouched (rounds : Nat) (r : Raft) (cmds actions) :
    Untouched r (applyLoop rounds r cmds actions).1 ∧
    (applyLoop rounds r cmds actions).1.hard = {r.hard with lastApplied := r.hard.lastApplied + rounds} ∧
    sendsOf (applyLoop rounds r cmds actions).2.2 = sendsOf actions := by
  induction rounds generalizing r cmds actions with
  | zero => exact ⟨.refl r,rfl,rfl⟩
  | succ rounds ih =>
    obtain ⟨entry,entryHard,entrySends⟩ := applyEntryUntouched r cmds actions (r.log.get (indexNext r.hard.lastApplied))
    obtain ⟨rest,hard,sends⟩ := ih (r.applyNext cmds actions).1 (r.applyNext cmds actions).2.1 (r.applyNext cmds actions).2.2
    have next : Untouched r (r.applyNext cmds actions).1 := entry.trans ⟨rfl,rfl,rfl,rfl,rfl,rfl,rfl⟩
    refine ⟨next.trans rest,?_,sends.trans entrySends⟩
    simp only [applyLoop]
    rw [hard]
    simp only [applyNext,setApplied,entryHard]
    simp [indexNext,Nat.add_assoc,Nat.add_comm 1 rounds]

theorem applyCommittedUntouched (r) : Untouched r r.applyCommitted.1 := (applyLoopUntouched _ r [] []).1

theorem applyCommittedHard (r : Raft) : r.applyCommitted.1.hard =
    {r.hard with lastApplied := max r.hard.lastApplied r.hard.commitIndex} := by
  have h := (applyLoopUntouched (r.hard.commitIndex - r.hard.lastApplied) r [] []).2.1
  have sum : r.hard.lastApplied + (r.hard.commitIndex - r.hard.lastApplied) =
      max r.hard.lastApplied r.hard.commitIndex := by omega
  rw [sum] at h
  exact h

theorem applyCommittedSends (r : Raft) : sendsOf r.applyCommitted.2 = [] := by
  have h := (applyLoopUntouched (r.hard.commitIndex - r.hard.lastApplied) r [] []).2.2
  simp only [applyCommitted,applyActions]
  split <;> split <;> simp [h]

theorem tryAdvanceUntouched (r : Raft) : Untouched r r.tryAdvanceCommit.1 := by
  have all := ((advanceFold _ _ (r,[])).1.trans (applyCommittedUntouched r.advanceLoop.1)).trans (confirmUntouched _)
  unfold tryAdvanceCommit
  dsimp only
  split <;> exact all

theorem tryAdvanceSends (r : Raft) : sendsOf r.tryAdvanceCommit.2 = [] := by
  unfold tryAdvanceCommit
  dsimp only
  split <;> simp [advanceSends,applyCommittedSends,tryConfirmReads]

end

/-! Elections. A call keeps the standing of the node, makes it a follower, casts
its vote, starts a campaign or counts an answer; nothing else. -/

def isVote : RpcMessage → Bool
  | .requestVote _ => true
  | .requestVoteResp resp => resp.voteGranted
  | _ => false

def Quiet (out : Outbound) : Prop := ∀ m ∈ out, isVote m.2 = false

theorem quietNil : Quiet [] := by
  intro m mem
  cases mem

theorem Quiet.append (left : Quiet a) (right : Quiet b) : Quiet (a ++ b) := forall_mem_append.mpr ⟨left,right⟩

theorem Quiet.cons (head : isVote msg = false) (tail : Quiet out) : Quiet ((target,msg) :: out) :=
  forall_mem_cons.mpr ⟨head,tail⟩

def outputs (sender : NodeId) (resp : Option RpcMessage) (actions : List Action) : Outbound :=
  match resp with
  | some msg => (sender,msg) :: sendsOf actions
  | none => sendsOf actions

def campaignReq (r : Raft) : RequestVoteReq :=
  ⟨termNext r.hard.currentTerm,r.config.id,r.log.lastIndex,r.log.termAt r.log.lastIndex⟩

inductive VoteEffect (r r' : Raft) (incoming : Option (NodeId × RpcMessage)) (out : Outbound)
    (saved : Prop) : Prop where
  | keep (term : r'.hard.currentTerm = r.hard.currentTerm)
      (vote : r'.hard.votedFor = r.hard.votedFor)
      (role : r'.soft.role = r.soft.role) (votes : r'.votes = r.votes) (quiet : Quiet out)
  | follow (term : r.hard.currentTerm ≤ r'.hard.currentTerm)
      (vote : r'.hard.votedFor =
        if r.hard.currentTerm < r'.hard.currentTerm then none else r.hard.votedFor)
      (role : r'.soft.role = .follower) (votes : r'.votes = ∅) (persist : saved) (quiet : Quiet out)
  | grant (sender : NodeId) (req : RequestVoteReq)
      (cause : incoming = some (sender,.requestVote req))
      (up : r.hard.currentTerm ≤ req.term) (term : r'.hard.currentTerm = req.term)
      (free : r.hard.currentTerm < req.term ∨ r.hard.votedFor = none ∨
        r.hard.votedFor = some req.candidateId)
      (vote : r'.hard.votedFor = some req.candidateId)
      (standing : (r.hard.currentTerm < req.term ∧ r'.soft.role = .follower ∧ r'.votes = ∅) ∨
        (r'.soft.role = r.soft.role ∧ r'.votes = r.votes ∧ r.hard.currentTerm = req.term))
      (upToDate : r.logIsUpToDate req.lastLogIndex req.lastLogTerm = true)
      (persist : saved) (sent : out = [(sender,.requestVoteResp ⟨req.term,true⟩)])
  | campaign (alone : incoming = none) (was : r.soft.role ≠ .leader)
      (term : r'.hard.currentTerm = termNext r.hard.currentTerm)
      (vote : r'.hard.votedFor = some r.config.id) (votes : r'.votes = {r.config.id})
      (role : r'.soft.role = .candidate ∨ (r'.soft.role = .leader ∧ r.config.quorum ≤ 1))
      (persist : saved)
      (sent : ∀ m ∈ out, isVote m.2 = true → m.1 ∈ r.config.voters ∧ m.1 ≠ r.config.id ∧
        m.2 = .requestVote (campaignReq r))
  | count (sender : NodeId) (resp : RequestVoteResp)
      (cause : incoming = some (sender,.requestVoteResp resp))
      (was : r.soft.role = .candidate) (current : resp.term = r.hard.currentTerm)
      (term : r'.hard.currentTerm = r.hard.currentTerm)
      (vote : r'.hard.votedFor = r.hard.votedFor)
      (votes : r'.votes = (r.countVote sender resp).votes)
      (role : r'.soft.role = .candidate ∨
        (r'.soft.role = .leader ∧ r.config.quorum ≤ r'.votes.card))
      (quiet : Quiet out)

abbrev Effects (r : Raft) (incoming : Option (NodeId × RpcMessage)) (done : Raft × List Action) : Prop :=
  VoteEffect r done.1 incoming (sendsOf done.2) (.persistHardState ∈ done.2)

abbrev Answers (r : Raft) (sender : NodeId) (incoming : Option (NodeId × RpcMessage))
    (done : Raft × Option RpcMessage × List Action) : Prop :=
  VoteEffect r done.1 incoming (outputs sender done.2.1 done.2.2) (.persistHardState ∈ done.2.2)

theorem Untouched.keep (same : Untouched r r') (quiet : Quiet out) : VoteEffect r r' incoming out saved :=
  .keep same.term same.vote (by rw [same.soft]) same.votes quiet

theorem appendToPeerSent (r : Raft) (peer) (mem : m ∈ sendsOf (r.appendToPeer peer)) :
    r.soft.role = .leader ∧ m.1 = peer ∧
      (m.2 = .installSnapshot r.snapshotReq ∨ m.2 = .appendEntries (r.appendReq (r.nextFor peer))) := by
  unfold appendToPeer at mem
  split at mem
  · cases mem
  · rename_i leads
    refine ⟨by simpa using leads,?_⟩
    dsimp only at mem
    split at mem
    · cases mem_singleton.mp mem
      exact ⟨rfl,.inl rfl⟩
    · cases mem_singleton.mp mem
      exact ⟨rfl,.inr rfl⟩

theorem sendsOfFlatMap {α : Type} (xs : List α) (f) :
    sendsOf (xs.flatMap f) = xs.flatMap (fun x => sendsOf (f x)) := by
  induction xs with
  | nil => rfl
  | cons _ _ ih => simp [ih]

theorem broadcastSent (r : Raft) (mem : m ∈ sendsOf r.broadcastAppend) :
    m.1 ∈ r.config.voters ∧ m.1 ≠ r.config.id ∧ m ∈ sendsOf (r.appendToPeer m.1) := by
  unfold broadcastAppend at mem
  split at mem
  · cases mem
  · simp only [sendsOfFlatMap,mem_flatMap,mem_filter] at mem
    obtain ⟨peer,⟨voter,other⟩,mem⟩ := mem
    obtain ⟨_,same,_⟩ := appendToPeerSent r peer mem
    subst same
    exact ⟨voter,by simpa using other,mem⟩

theorem appendToPeerQuiet (r : Raft) (peer) : Quiet (sendsOf (r.appendToPeer peer)) := by
  intro m mem
  obtain ⟨_,_,h | h⟩ := appendToPeerSent r peer mem <;> rw [h] <;> rfl

theorem broadcastQuiet (r : Raft) : Quiet (sendsOf r.broadcastAppend) := by
  intro m mem
  exact appendToPeerQuiet r m.1 m (broadcastSent r mem).2.2

theorem followEffect (r term leader draw incoming) (up : r.hard.currentTerm ≤ term) :
    Effects r incoming (r.becomeFollower term leader draw) := by
  refine .follow ?_ ?_ rfl rfl (by simp [becomeFollower]) quietNil <;>
    by_cases h : term > r.hard.currentTerm <;> simp [becomeFollower,resetElectionTimer,h,up]

theorem requestsSent (r : Raft) (term last lastTerm) : sendsOf (r.voteRequests term last lastTerm) =
      (r.config.voters.filter (fun p => p ≠ r.config.id)).map (fun peer =>
        (peer,.requestVote ⟨term,r.config.id,last,lastTerm⟩)) := by
  unfold voteRequests
  induction r.config.voters.filter (fun p => p ≠ r.config.id) with
  | nil => rfl
  | cons _ _ ih => simp [map_cons,sendsOfSend,ih]

theorem becomeLeaderQuiet (r : Raft) : Quiet (sendsOf r.becomeLeader.2) := broadcastQuiet r.becomeLeader.1

def campaigning (r : Raft) (draw : Nat) : Raft :=
  {r with
    hard := {r.hard with currentTerm := termNext r.hard.currentTerm, votedFor := some r.config.id}
    soft := ⟨.candidate,none⟩
    votes := {r.config.id}}.resetElectionTimer draw

def campaignActions (r : Raft) : List Action :=
  .persistHardState :: r.voteRequests (termNext r.hard.currentTerm) r.log.lastIndex
    (r.log.termAt r.log.lastIndex)

theorem becomeCandidateEq (r draw) : r.becomeCandidate draw = if 1 ≥ r.config.quorum then
      ((campaigning r draw).becomeLeader.1, campaignActions r ++ (campaigning r draw).becomeLeader.2)
    else (campaigning r draw,campaignActions r) := rfl

theorem campaignSent (r : Raft) (mem : m ∈ sendsOf (campaignActions r)) :
    m.1 ∈ r.config.voters ∧ m.1 ≠ r.config.id ∧ m.2 = .requestVote (campaignReq r) := by
  simp only [campaignActions,sendsOfPersist,requestsSent,mem_map,mem_filter] at mem
  obtain ⟨_,⟨voter,other⟩,same⟩ := mem
  subst same
  exact ⟨voter,by simpa using other,rfl⟩

theorem campaignEffect (r draw) (was : r.soft.role ≠ .leader) : Effects r none (r.becomeCandidate draw) := by
  rw [becomeCandidateEq]
  split
  · rename_i single
    refine .campaign rfl was rfl rfl rfl (.inr ⟨rfl,single⟩) (by simp [campaignActions]) ?_
    intro m mem vote
    rw [sendsOfAppend] at mem
    rcases mem_append.mp mem with h | h
    · exact campaignSent r h
    · have quiet := becomeLeaderQuiet (campaigning r draw) m h
      rw [quiet] at vote
      cases vote
  · exact .campaign rfl was rfl rfl rfl (.inl rfl) (by simp [campaignActions]) (fun m mem _ => campaignSent r mem)

theorem tickEffect (r ms draw) : Effects r none (r.tick ms draw) := by
  unfold tick
  split
  · split
    · exact .keep rfl rfl rfl rfl (broadcastQuiet _)
    · exact .keep rfl rfl rfl rfl quietNil
  · rename_i was
    split
    · unfold startElection
      rw [if_neg was]
      exact campaignEffect r draw was
    · exact .keep rfl rfl rfl rfl quietNil

theorem observeEffect (r term draw incoming) : Effects r incoming (r.observeTerm term draw) := by
  unfold observeTerm
  split
  · exact followEffect r term none draw incoming (by omega)
  · exact .keep rfl rfl rfl rfl quietNil

theorem VoteEffect.reply (effect : VoteEffect r r' incoming out saved) (silent : isVote msg = false)
    (others : Quiet out) : VoteEffect r r' incoming ((sender,msg) :: out) saved := by
  cases effect with
  | keep term vote role votes quiet => exact .keep term vote role votes (quiet.cons silent)
  | follow term vote role votes persist quiet =>
    exact .follow term vote role votes persist (quiet.cons silent)
  | grant _ _ _ _ _ _ _ _ _ _ sent =>
    subst sent
    have loud := others _ (mem_singleton.mpr rfl)
    cases loud
  | campaign alone was term vote votes role persist =>
    refine .campaign alone was term vote votes role persist ?_
    intro m mem loud
    rw [(others.cons silent) m mem] at loud
    cases loud
  | count sender resp cause was current term vote votes role quiet =>
    exact .count sender resp cause was current term vote votes role (quiet.cons silent)

theorem observeQuiet (r : Raft) (term draw) : Quiet (sendsOf (r.observeTerm term draw).2) := by
  unfold observeTerm
  split <;> exact quietNil

theorem observeFacts (r : Raft) (term draw) (up : r.hard.currentTerm ≤ term) :
    (r.observeTerm term draw).1.hard.currentTerm = term ∧ (r.observeTerm term draw).1.log = r.log ∧
    ((r.hard.currentTerm < term ∧ (r.observeTerm term draw).1.soft.role = .follower ∧
        (r.observeTerm term draw).1.votes = ∅) ∨ ((r.observeTerm term draw).1 = r ∧ r.hard.currentTerm = term)) := by
  unfold observeTerm
  by_cases h : term > r.hard.currentTerm
  · rw [if_pos h]
    simp [becomeFollower,resetElectionTimer,h]
  · rw [if_neg h]
    have same : r.hard.currentTerm = term := by omega
    exact ⟨same,rfl,.inr ⟨rfl,same⟩⟩

theorem requestVoteEffect (r sender req draw) :
    Answers r sender (some (sender,.requestVote req)) (r.handleRequestVote sender req draw) := by
  unfold handleRequestVote
  split
  · exact .keep rfl rfl rfl rfl (quietNil.cons rfl)
  · rename_i fresh
    have up : r.hard.currentTerm ≤ req.term := by omega
    obtain ⟨term,log,standing⟩ := observeFacts r req.term draw up
    dsimp only
    split
    · rename_i may
      simp only [mayVote,Bool.and_eq_true,Bool.or_eq_true,decide_eq_true_eq] at may
      obtain ⟨free,upToDate⟩ := may
      refine .grant sender req rfl up term ?_ rfl ?_ ?_ (by simp) ?_
      · rcases standing with ⟨less,_⟩ | ⟨same,_⟩
        · exact .inl less
        · rw [same] at free
          exact .inr free
      · rcases standing with ⟨less,role,votes⟩ | ⟨same,eq⟩
        · exact .inl ⟨less,role,votes⟩
        · refine .inr ⟨?_,?_,eq⟩ <;> simp [castVote,resetElectionTimer,same]
      · simpa only [logIsUpToDate,log] using upToDate
      · simp only [outputs,sendsOfAppend,sendsOfPersist,sendsOfNil,append_nil,term]
        have silent : sendsOf (r.observeTerm req.term draw).2 = [] := by
          unfold observeTerm
          split <;> rfl
        rw [silent]
    · exact (observeEffect r req.term draw _).reply rfl (observeQuiet r req.term draw)

structure SameStanding (r r' : Raft) : Prop where
  term : r'.hard.currentTerm = r.hard.currentTerm
  vote : r'.hard.votedFor = r.hard.votedFor
  soft : r'.soft = r.soft
  votes : r'.votes = r.votes
  id : r'.config.id = r.config.id

namespace SameStanding

theorem refl (r) : SameStanding r r := ⟨rfl,rfl,rfl,rfl,rfl⟩

theorem trans (ab : SameStanding a b) (bc : SameStanding b c) : SameStanding a c :=
  ⟨bc.term.trans ab.term,bc.vote.trans ab.vote,bc.soft.trans ab.soft,bc.votes.trans ab.votes, bc.id.trans ab.id⟩

end SameStanding

theorem Untouched.standing (same : Untouched r r') : SameStanding r r' :=
  ⟨same.term,same.vote,same.soft,same.votes,same.id⟩

theorem storeStanding (r req) : SameStanding r (r.storeEntries req).1 := by
  unfold storeEntries
  split <;> exact ⟨rfl,rfl,rfl,rfl,rfl⟩

theorem storeSends (r : Raft) (req) : sendsOf (r.storeEntries req).2 = [] := by
  unfold storeEntries
  split <;> rfl

theorem finishStanding (r req) : SameStanding r (r.finishSnapshot req).1 := by
  unfold finishSnapshot
  split <;> exact ⟨rfl,rfl,rfl,rfl,rfl⟩

theorem finishSends (r : Raft) (req) : sendsOf (r.finishSnapshot req).2 = [] := by
  unfold finishSnapshot
  split <;> rfl

theorem acceptEffect (r req draw incoming) (up : r.hard.currentTerm ≤ req.term) :
    Effects r incoming (r.acceptLeader req draw) := by
  unfold acceptLeader
  split
  · exact followEffect r req.term _ draw incoming up
  · exact .keep rfl rfl rfl rfl quietNil

theorem acceptSends (r : Raft) (req draw) : sendsOf (r.acceptLeader req draw).2 = [] := by
  unfold acceptLeader
  split <;> rfl

theorem VoteEffect.after (effect : VoteEffect r r' incoming (sendsOf actions) (.persistHardState ∈ actions))
    (silent : sendsOf actions = []) (same : SameStanding r' r'')
    (quiet : Quiet out) : VoteEffect r r'' incoming out (.persistHardState ∈ actions ++ more) := by
  cases effect with
  | keep term vote role votes =>
    exact .keep (same.term.trans term) (same.vote.trans vote) (by rw [same.soft]; exact role)
      (same.votes.trans votes) quiet
  | follow term vote role votes persist =>
    refine .follow ?_ ?_ (by rw [same.soft]; exact role) (same.votes.trans votes) (mem_append_left _ persist) quiet
    · rw [same.term]
      exact term
    · rw [same.term,same.vote]
      exact vote
  | grant _ _ _ _ _ _ _ _ _ _ sent =>
    rw [silent] at sent
    cases sent
  | campaign alone was term vote votes role persist =>
    refine .campaign alone was (same.term.trans term) (same.vote.trans vote) (same.votes.trans votes)
      (by rw [same.soft]; exact role) (mem_append_left _ persist) ?_
    intro m mem loud
    rw [quiet m mem] at loud
    cases loud
  | count sender resp cause was current term vote votes role =>
    exact .count sender resp cause was current (same.term.trans term) (same.vote.trans vote)
      (same.votes.trans votes) (by rw [same.soft,same.votes]; exact role) quiet

theorem readIndexEffect (r sender req incoming) : Answers r sender incoming (r.handleReadIndex sender req) := by
  unfold handleReadIndex
  split
  · exact .keep rfl rfl rfl rfl quietNil
  · refine .keep rfl rfl rfl rfl (Quiet.cons rfl ?_)
    simp only [sendsOfAppend]
    exact (broadcastQuiet _).append quietNil

theorem countVoteKept (r : Raft) (sender resp) : r.countVote sender resp =
    {r with votes := (r.countVote sender resp).votes} := by
  unfold countVote
  split <;> rfl

theorem voteTimely {r : Raft} {resp : RequestVoteResp}
    (timely : ¬(r.soft.role ≠ .candidate ∨ resp.term ≠ r.hard.currentTerm)) :
    r.soft.role = .candidate ∧ resp.term = r.hard.currentTerm := by
  simpa only [ne_eq,not_or,not_not] using timely

theorem voteResponseEffect (r sender resp draw) :
    Effects r (some (sender,.requestVoteResp resp)) (r.stepVoteResponse sender resp draw) := by
  unfold stepVoteResponse
  split
  · exact followEffect r resp.term none draw _ (by omega)
  · split
    · exact .keep rfl rfl rfl rfl quietNil
    · rename_i late
      obtain ⟨was,current⟩ := voteTimely late
      rw [countVoteKept]
      dsimp only
      split
      · rename_i won
        exact .count sender resp rfl was current rfl rfl rfl (.inr ⟨rfl,won⟩) (becomeLeaderQuiet _)
      · exact .count sender resp rfl was current rfl rfl rfl (.inl was) quietNil

theorem installSnapshotEffect (r sender req draw incoming) :
    Answers r sender incoming (r.handleInstallSnapshot sender req draw) := by
  unfold handleInstallSnapshot
  split
  · rename_i fresh
    refine (followEffect r req.term (some req.leaderId) draw incoming fresh).after rfl ?_ ?_
    · have restored := finishStanding ((r.becomeFollower req.term (some req.leaderId) draw).1.restoreLog
        req.lastIncludedIndex req.lastIncludedTerm) req
      exact ⟨restored.term,restored.vote,restored.soft,restored.votes,restored.id⟩
    · simp only [outputs,sendsOfAppend,finishSends,append_nil]
      exact quietNil.cons rfl
  · exact .keep rfl rfl rfl rfl (quietNil.cons rfl)

section
variable [Bincode]

theorem followCommitStanding (r req) : SameStanding r (r.followCommit req).1 := by
  unfold followCommit
  split
  · dsimp only
    split
    · exact ((setCommitUntouched r _).trans (applyCommittedUntouched _)).standing
    · exact .refl r
  · exact .refl r

theorem followCommitSends (r : Raft) (req) : sendsOf (r.followCommit req).2 = [] := by
  unfold followCommit
  split
  · dsimp only
    split
    · simp [applyCommittedSends]
    · rfl
  · rfl

theorem replicateStanding (r req actions) : SameStanding r (r.replicate req actions).1 := by
  unfold Raft.replicate
  split
  · exact .refl r
  · exact (storeStanding r req).trans (followCommitStanding _ req)

theorem replicateActions (r : Raft) (req actions) :
    ∃ more, (r.replicate req actions).2.2 = actions ++ more ∧ sendsOf more = [] := by
  unfold Raft.replicate
  split
  · exact ⟨[],by simp,rfl⟩
  · refine ⟨(r.storeEntries req).2 ++ ((r.storeEntries req).1.followCommit req).2,?_,?_⟩
    · simp [append_assoc]
    · simp [storeSends,followCommitSends]

theorem replicateAnswer (r : Raft) (req actions) :
    ∃ resp, (r.replicate req actions).2.1 = some (.appendEntriesResp resp) := by
  unfold Raft.replicate
  split <;> exact ⟨_,rfl⟩

theorem appendEntriesEffect (r sender req draw incoming) :
    Answers r sender incoming (r.handleAppendEntries sender req draw) := by
  unfold handleAppendEntries
  split
  · exact .keep rfl rfl rfl rfl (quietNil.cons rfl)
  · rename_i fresh
    obtain ⟨_,eq,silent⟩ := replicateActions (r.acceptLeader req draw).1 req (r.acceptLeader req draw).2
    obtain ⟨_,answer⟩ := replicateAnswer (r.acceptLeader req draw).1 req (r.acceptLeader req draw).2
    dsimp only [Answers]
    rw [eq,answer]
    refine (acceptEffect r req draw incoming (by omega)).after (acceptSends r req draw) (replicateStanding _ req _) ?_
    simp only [outputs,sendsOfAppend,acceptSends,silent]
    exact quietNil.cons rfl

theorem appendResponseEffect (r sender resp draw incoming) :
    Effects r incoming (r.stepAppendResponse sender resp draw) := by
  unfold stepAppendResponse
  split
  · exact followEffect r resp.term none draw incoming (by omega)
  · split
    · exact .keep rfl rfl rfl rfl quietNil
    · split
      · exact .keep rfl rfl rfl rfl quietNil
      · rename_i p _
        have recorded : Untouched r (r.recordAck sender p resp) := ⟨rfl,rfl,rfl,rfl,rfl,rfl,rfl⟩
        have same := recorded.trans (tryAdvanceUntouched (r.recordAck sender p resp))
        dsimp only
        split_ifs
        · refine same.keep ?_
          simp only [sendsOfAppend,tryAdvanceSends,nil_append]
          exact appendToPeerQuiet _ sender
        · refine same.keep ?_
          rw [tryAdvanceSends]
          exact quietNil

theorem dispatchEffect (r sender msg draw) : Answers r sender (some (sender,msg)) (RaftNode.dispatch r sender msg draw) := by
  cases msg with
  | requestVote req => exact requestVoteEffect r sender req draw
  | requestVoteResp resp => exact voteResponseEffect r sender resp draw
  | appendEntries req => exact appendEntriesEffect r sender req draw _
  | appendEntriesResp resp => exact appendResponseEffect r sender resp draw _
  | installSnapshot req => exact installSnapshotEffect r sender req draw _
  | installSnapshotResp | readIndexResp => exact .keep rfl rfl rfl rfl (quietNil.cons rfl)
  | readIndex req => exact readIndexEffect r sender req _

end

structure Stable (r r' : Raft) : Prop where
  commit : r'.hard.commitIndex = r.hard.commitIndex
  applied : r'.hard.lastApplied = r.hard.lastApplied
  log : r'.log = r.log

theorem Stable.refl (r) : Stable r r := ⟨rfl,rfl,rfl⟩

theorem becomeFollowerStable (r term leader draw) : Stable r (r.becomeFollower term leader draw).1 := by
  unfold becomeFollower
  split <;> exact ⟨rfl,rfl,rfl⟩

theorem tickStable (r ms draw) : Stable r (r.tick ms draw).1 := by
  unfold tick
  split
  · split <;> exact ⟨rfl,rfl,rfl⟩
  · split
    · rename_i was _
      unfold startElection
      rw [if_neg was,becomeCandidateEq]
      split <;> exact ⟨rfl,rfl,rfl⟩
    · exact ⟨rfl,rfl,rfl⟩

theorem observeStable (r term draw) : Stable r (r.observeTerm term draw).1 := by
  unfold observeTerm
  split
  · exact becomeFollowerStable r term none draw
  · exact .refl r

theorem requestVoteStable (r sender req draw) : Stable r (r.handleRequestVote sender req draw).1 := by
  have seen := observeStable r req.term draw
  unfold handleRequestVote
  split
  · exact .refl r
  · dsimp only
    split <;> exact ⟨seen.commit,seen.applied,seen.log⟩

theorem voteResponseStable (r : Raft) (sender resp draw) : Stable r (r.stepVoteResponse sender resp draw).1 := by
  unfold stepVoteResponse
  split
  · exact becomeFollowerStable r resp.term none draw
  · split
    · exact .refl r
    · rw [countVoteKept]
      dsimp only
      split <;> exact ⟨rfl,rfl,rfl⟩

theorem readIndexStable (r sender req) : Stable r (r.handleReadIndex sender req).1 := by
  unfold handleReadIndex
  split <;> exact ⟨rfl,rfl,rfl⟩

theorem acceptStable (r req draw) : Stable r (r.acceptLeader req draw).1 := by
  unfold acceptLeader
  split
  · exact becomeFollowerStable r req.term _ draw
  · exact ⟨rfl,rfl,rfl⟩

theorem followCommitCounters [Bincode] (r : Raft) (req : AppendEntriesReq) : (r.followCommit req).1.log = r.log ∧
    ((r.followCommit req).1.hard = r.hard ∨ (r.hard.commitIndex < req.leaderCommit ∧
      (r.followCommit req).1.hard.commitIndex = min req.leaderCommit r.log.lastIndex ∧
      (r.followCommit req).1.hard.lastApplied = max r.hard.lastApplied (min req.leaderCommit r.log.lastIndex))) := by
  unfold followCommit
  split
  · rename_i more
    dsimp only
    split
    · refine ⟨(applyCommittedUntouched _).log,.inr ⟨more,?_,?_⟩⟩
      · rw [applyCommittedHard]
        rfl
      · rw [applyCommittedHard]
        rfl
    · exact ⟨rfl,.inl rfl⟩
  · exact ⟨rfl,.inl rfl⟩

theorem tickId (r : Raft) (ms draw) : (r.tick ms draw).1.config.id = r.config.id := by
  unfold tick
  split
  · split <;> rfl
  · split
    · rename_i was _
      unfold startElection
      rw [if_neg was,becomeCandidateEq]
      split <;> rfl
    · rfl

theorem dispatchId [Bincode] (r sender msg draw) :
    (RaftNode.dispatch r sender msg draw).1.config.id = r.config.id := by
  cases msg with
  | requestVote =>
    simp only [RaftNode.dispatch,step,handleRequestVote,observeTerm]
    split
    · rfl
    · split <;> split <;> rfl
  | requestVoteResp =>
    simp only [RaftNode.dispatch,stepVoteResponse,countVote]
    split
    · rfl
    · split
      · rfl
      · split <;> split <;> rfl
  | appendEntries req =>
    have accepted : (r.acceptLeader req draw).1.config.id = r.config.id := by
      unfold acceptLeader
      split <;> rfl
    simp only [RaftNode.dispatch,step,handleAppendEntries]
    split
    · rfl
    · exact (replicateStanding _ req _).id.trans accepted
  | appendEntriesResp resp =>
    simp only [RaftNode.dispatch,stepAppendResponse]
    split
    · rfl
    · split
      · rfl
      · split
        · rfl
        · rename_i p _
          have same := (tryAdvanceUntouched (r.recordAck sender p resp)).id
          split_ifs <;> exact same
  | installSnapshot req =>
    simp only [RaftNode.dispatch,step,handleInstallSnapshot]
    split
    · exact (finishStanding ((r.becomeFollower req.term (some req.leaderId) draw).1.restoreLog
        req.lastIncludedIndex req.lastIncludedTerm) req).id
    · rfl
  | installSnapshotResp => rfl
  | readIndex =>
    simp only [RaftNode.dispatch,step,handleReadIndex]
    split <;> rfl
  | readIndexResp => rfl

theorem ownEntryEffect (r cmd actions) (sent : actions = [r.persistOwn cmd] ++ (r.appendOwn cmd).broadcastAppend) :
    VoteEffect r (r.appendOwn cmd) none (sendsOf actions) (.persistHardState ∈ actions) := by
  subst sent
  refine .keep rfl rfl rfl rfl ?_
  exact quietNil.append (broadcastQuiet _)

end NoeDB.RaftEffects
