import NoeDB.RaftDurability

/-! Logs without configuration entries. Applying them never touches the voter
list, and what committing and applying leave behind is known exactly. -/
namespace NoeDB.RaftPlain
open RaftTypes RaftCore RaftRuntime RaftEffects RaftDurability List Raft RaftLog

def commandsOf (es : List LogEntry) : List Command :=
  (es.map LogEntry.command).filter (fun c => c ≠ [])

theorem commandsOfAppend (a b) : commandsOf (a ++ b) = commandsOf a ++ commandsOf b := by
  simp [commandsOf]

theorem dropTakeSucc {α : Type} (l : List α) (k n) :
    (l.drop k).take (n+1) = l[k]?.toList ++ (l.drop (k+1)).take n := by
  by_cases h : k < l.length
  · rw [drop_eq_getElem_cons h,take_succ_cons,List.getElem?_eq_getElem h]
    rfl
  · have beyond : l.length ≤ k := by omega
    rw [drop_of_length_le beyond,drop_of_length_le (by omega)]
    simp [beyond]

def between (log : RaftLog) (first last : Nat) : List LogEntry :=
  (log.entries.drop (first+1)).take (last - first)

section
variable [Bincode]

def PlainEntry (e : LogEntry) : Prop := decodeConfChange e.command = none

def PlainLog (log : RaftLog) : Prop := ∀ e ∈ log.entries, PlainEntry e

def PlainMsg : RpcMessage → Prop
  | .appendEntries req => ∀ e ∈ req.entries, PlainEntry e
  | _ => True

theorem fillerPlain (term) : PlainEntry ⟨term,[]⟩ := decodeEmpty

theorem applyEntryPlain (r : Raft) (cmds actions) (plain : ∀ e ∈ entry, PlainEntry e) :
    r.applyEntry cmds actions entry = (r,cmds ++ commandsOf entry.toList,actions) := by
  cases entry with
  | none => simp [applyEntry,commandsOf]
  | some e =>
    have none : decodeConfChange e.command = none := plain e rfl
    simp only [applyEntry,none]
    by_cases empty : e.command = []
    · simp [empty,commandsOf]
    · simp [empty,commandsOf]

theorem applyLoopPlain (rounds : Nat) (r cmds actions) (plain : PlainLog r.log) :
    applyLoop rounds r cmds actions = (r.setApplied (r.hard.lastApplied + rounds),
        cmds ++ commandsOf ((r.log.entries.drop (r.hard.lastApplied+1)).take rounds),actions) := by
  induction rounds generalizing r cmds with
  | zero => simp [applyLoop,setApplied,commandsOf]
  | succ rounds ih =>
    have here : ∀ e ∈ r.log.get (r.hard.lastApplied+1), PlainEntry e := fun e found => plain e (mem_of_getElem? found)
    have next : r.applyNext cmds actions = (r.setApplied (r.hard.lastApplied+1),
        cmds ++ commandsOf (r.log.get (r.hard.lastApplied+1)).toList,actions) := by
      simp [applyNext,indexNext,applyEntryPlain r cmds actions here]
    simp only [applyLoop,next]
    have rest := ih (r.setApplied (r.hard.lastApplied+1))
      (cmds ++ commandsOf (r.log.get (r.hard.lastApplied+1)).toList) plain
    rw [rest,dropTakeSucc,commandsOfAppend]
    simp [setApplied,RaftLog.get,append_assoc,Nat.add_assoc,Nat.add_comm 1 rounds]

theorem applyCommittedPlain (r : Raft) (plain : PlainLog r.log) :
    r.applyCommitted = (r.setApplied (max r.hard.lastApplied r.hard.commitIndex),
      applyActions (commandsOf (between r.log r.hard.lastApplied r.hard.commitIndex)) []) := by
  have sum : r.hard.lastApplied + (r.hard.commitIndex - r.hard.lastApplied) =
      max r.hard.lastApplied r.hard.commitIndex := by omega
  simp [applyCommitted,applyLoopPlain _ r [] [] plain,sum,nil_append,between]

end

structure Advanced (r : Raft) (k : Nat) : Prop where
  cases : k = r.hard.commitIndex ∨
    (r.hard.commitIndex < k ∧ k ≤ r.log.lastIndex ∧ r.log.termAt k = r.hard.currentTerm ∧
      r.hasQuorumForIndex k = true)

def Counted (r : Raft) (i : Nat) : Prop := r.log.termAt i = r.hard.currentTerm ∧ r.hasQuorumForIndex i = true

theorem advanceFoldSpec (r indices k actions)
    (inside : ∀ i ∈ indices, r.hard.commitIndex < i ∧ i ≤ r.log.lastIndex) (start : Advanced r k)
    (silent : ∀ a ∈ actions, a = .persistHardState) (ascends : (k :: indices).Pairwise (· < ·)) :
    ∃ k' actions', indices.foldl (commitAt r.hard.currentTerm) (r.setCommit k,actions) =
      (r.setCommit k',actions') ∧ Advanced r k' ∧ (k ≤ k' ∧ ∀ i ∈ indices, Counted r i → i ≤ k') ∧
        ∀ a ∈ actions', a = .persistHardState := by
  induction indices generalizing k actions with
  | nil => exact ⟨k,actions,rfl,start,⟨Nat.le_refl k,by simp⟩,silent⟩
  | cons i _ ih =>
    have later := fun j mem => inside j (mem_cons_of_mem _ mem)
    obtain ⟨above,rising⟩ := pairwise_cons.mp ascends
    rw [foldl_cons]
    by_cases counted : Counted r i
    · have bounds := inside i mem_cons_self
      have taken : commitAt r.hard.currentTerm (r.setCommit k,actions) i =
          (r.setCommit i,actions ++ [.persistHardState]) :=
        (if_neg (not_not.mpr counted.1)).trans (if_pos counted.2)
      rw [taken]
      obtain ⟨k',actions',folded,advanced,⟨least,most⟩,silent'⟩ :=
        ih i (actions ++ [.persistHardState]) later ⟨.inr ⟨bounds.1,bounds.2,counted⟩⟩
          (by simpa [or_imp,forall_and] using silent) rising
      exact ⟨k',actions',folded,advanced,⟨(above i mem_cons_self).le.trans least,forall_mem_cons.mpr ⟨fun _ => least,most⟩⟩,
        silent'⟩
    · have passed : commitAt r.hard.currentTerm (r.setCommit k,actions) i = (r.setCommit k,actions) := by
        unfold commitAt
        split
        · rfl
        · rename_i own
          exact if_neg fun quorum => counted ⟨not_not.mp own,quorum⟩
      rw [passed]
      obtain ⟨k',actions',folded,advanced,⟨least,most⟩,silent'⟩ := ih k actions later start silent
        (pairwise_cons.mpr ⟨fun j mem => above j (mem_cons_of_mem _ mem),rising.of_cons⟩)
      exact ⟨k',actions',folded,advanced,⟨least,forall_mem_cons.mpr ⟨fun own => absurd own counted,most⟩⟩,silent'⟩

theorem advanceSpec (r) : ∃ k, r.advanceLoop.1 = r.setCommit k ∧ Advanced r k ∧
    (r.hard.commitIndex ≤ k ∧ ∀ i ≤ r.log.lastIndex, Counted r i → i ≤ k) ∧ ∀ a ∈ r.advanceLoop.2, a = .persistHardState := by
  have inside : ∀ {i}, i ∈ range' (r.hard.commitIndex+1) (r.log.lastIndex - r.hard.commitIndex) ↔
      r.hard.commitIndex < i ∧ i ≤ r.log.lastIndex := by
    intro i
    rw [mem_range'_1]
    omega
  obtain ⟨k,actions,eq,advanced,⟨least,most⟩,silent⟩ := advanceFoldSpec r _ r.hard.commitIndex [] (fun _ => inside.mp)
    ⟨.inl rfl⟩ (by simp) (pairwise_cons.mpr ⟨fun _ mem => (inside.mp mem).1,pairwise_lt_range'⟩)
  have same : r.advanceLoop = (r.setCommit k,actions) := eq
  rw [same]
  refine ⟨k,rfl,advanced,⟨least,fun i bound counted => ?_⟩,silent⟩
  by_cases more : r.hard.commitIndex < i
  · exact most i (inside.mpr ⟨more,bound⟩) counted
  · omega

def committed (r : Raft) (k : Nat) : Raft :=
  (r.setCommit k).setApplied (max r.hard.lastApplied k)

theorem applyPlainActions (cmds) :
    applyActions cmds [] = if cmds = [] then [] else [.apply cmds,.persistHardState] := by
  by_cases empty : cmds = [] <;> simp [applyActions,empty]

/-! The other parts of an action list, next to its sends. -/

def appliesOf (actions : List Action) : List Command :=
  actions.flatMap (fun a => match a with
    | .apply cmds => cmds
    | _ => [])

@[simp] theorem appliesOfNil : appliesOf [] = [] := rfl

@[simp] theorem appliesOfAppend (a b) : appliesOf (a ++ b) = appliesOf a ++ appliesOf b := by
  simp [appliesOf]

def isSnapshot : Action → Bool
  | .snapshot _ => true
  | _ => false

def Uncut (actions : List Action) : Prop := ∀ a ∈ actions, isSnapshot a = false

theorem uncutNil : Uncut [] := by
  intro a mem
  cases mem

theorem Uncut.append (left : Uncut a) (right : Uncut b) : Uncut (a ++ b) := by
  intro x mem
  rcases mem_append.mp mem with h | h
  · exact left x h
  · exact right x h

def Bare (actions : List Action) : Prop :=
  ∀ a ∈ actions, a = .persistHardState ∨ ∃ target msg, a = .send target msg

theorem bareNil : Bare [] := by
  intro a mem
  cases mem

theorem barePersist : Bare [.persistHardState] := by
  intro a mem
  exact .inl (mem_singleton.mp mem)

theorem Bare.append (left : Bare a) (right : Bare b) : Bare (a ++ b) := by
  intro x mem
  rcases mem_append.mp mem with h | h
  · exact left x h
  · exact right x h

theorem Bare.applies (bare : Bare actions) : appliesOf actions = [] := by
  unfold appliesOf
  rw [flatMap_eq_nil_iff]
  intro a mem
  rcases bare a mem with eq | ⟨_,_,eq⟩ <;> subst eq <;> rfl

theorem Bare.uncut (bare : Bare actions) : Uncut actions := by
  intro a mem
  rcases bare a mem with eq | ⟨_,_,eq⟩ <;> subst eq <;> rfl

theorem Bare.covers (bare : Bare actions) (filler : ∀ term, P ⟨term,[]⟩) : Covers P actions := by
  refine ⟨filler,fun i es mem => ?_⟩
  rcases bare _ mem with eq | ⟨_,_,eq⟩ <;> cases eq

theorem coversAppend (left : Covers P a) (right : Covers P b) : Covers P (a ++ b) := by
  refine ⟨left.filler,fun i es mem => ?_⟩
  rcases mem_append.mp mem with h | h
  · exact left.written i es h
  · exact right.written i es h

theorem appendToPeerBare (r : Raft) (peer) : Bare (r.appendToPeer peer) := by
  intro a mem
  unfold appendToPeer at mem
  split at mem
  · cases mem
  · dsimp only at mem
    split at mem <;> exact .inr ⟨_,_,mem_singleton.mp mem⟩

theorem broadcastBare (r : Raft) : Bare r.broadcastAppend := by
  intro a mem
  unfold broadcastAppend at mem
  split at mem
  · cases mem
  · obtain ⟨peer,_,mem⟩ := mem_flatMap.mp mem
    exact appendToPeerBare r peer a mem

theorem becomeLeaderBare (r : Raft) : Bare r.becomeLeader.2 := broadcastBare r.becomeLeader.1

theorem campaignBare (r) : Bare (campaignActions r) := by
  intro a mem
  rcases mem_cons.mp mem with eq | mem
  · exact .inl eq
  · obtain ⟨_,_,eq⟩ := mem_map.mp mem
    exact .inr ⟨_,_,eq.symm⟩

theorem becomeCandidateBare (r : Raft) (draw) : Bare (r.becomeCandidate draw).2 := by
  rw [becomeCandidateEq]
  split
  · exact (campaignBare r).append (becomeLeaderBare _)
  · exact campaignBare r

theorem tickBare (r : Raft) (ms draw) : Bare (r.tick ms draw).2 := by
  unfold tick
  split
  · split
    · exact broadcastBare _
    · exact bareNil
  · rename_i was
    split
    · unfold startElection
      rw [if_neg was]
      exact becomeCandidateBare r draw
    · exact bareNil

theorem observeBare (r : Raft) (term draw) : Bare (r.observeTerm term draw).2 := by
  unfold observeTerm
  split
  · exact barePersist
  · exact bareNil

theorem requestVoteBare (r : Raft) (sender req draw) : Bare (r.handleRequestVote sender req draw).2.2 := by
  unfold handleRequestVote
  split
  · exact bareNil
  · dsimp only
    split
    · exact (observeBare r _ draw).append barePersist
    · exact observeBare r _ draw

theorem readIndexBare (r : Raft) (sender req) : Bare (r.handleReadIndex sender req).2.2 := by
  unfold handleReadIndex
  split
  · exact bareNil
  · exact (broadcastBare _).append bareNil

theorem voteResponseBare (r : Raft) (sender resp draw) : Bare (r.stepVoteResponse sender resp draw).2 := by
  unfold stepVoteResponse
  split
  · exact barePersist
  · split
    · exact bareNil
    · dsimp only
      split
      · exact becomeLeaderBare _
      · exact bareNil

theorem acceptBare (r : Raft) (req draw) : Bare (r.acceptLeader req draw).2 := by
  unfold acceptLeader
  split
  · exact barePersist
  · exact bareNil

section
variable [Bincode]

def PlainOut (out : Outbound) : Prop := ∀ m ∈ out, PlainMsg m.2

structure PlainEffect (r r' : Raft) (out : Outbound) : Prop where
  config : r'.config = r.config
  joint : r'.jointConfig = r.jointConfig
  log : PlainLog r'.log
  sent : PlainOut out

theorem plainOutNil : PlainOut [] := by
  intro m mem
  cases mem

theorem PlainOut.append (left : PlainOut a) (right : PlainOut b) : PlainOut (a ++ b) := by
  intro m mem
  rcases mem_append.mp mem with h | h
  · exact left m h
  · exact right m h

theorem PlainOut.cons (head : PlainMsg msg) (tail : PlainOut out) : PlainOut ((target,msg) :: out) := by
  intro m mem
  rcases mem_cons.mp mem with same | rest
  · subst same
    exact head
  · exact tail m rest

theorem appendReqPlain {r : Raft} (plain : PlainLog r.log) (next) : PlainMsg (.appendEntries (r.appendReq next)) := by
  intro e mem
  simp only [appendReq,sliceEntries] at mem
  exact plain e (mem_of_mem_drop (mem_of_mem_take mem))

theorem appendToPeerPlain {r : Raft} (plain : PlainLog r.log) (peer) : PlainOut (sendsOf (r.appendToPeer peer)) := by
  intro m mem
  obtain ⟨_,_,eq | eq⟩ := appendToPeerSent r peer mem
  · rw [eq]
    trivial
  · rw [eq]
    exact appendReqPlain plain _

theorem broadcastPlain {r : Raft} (plain : PlainLog r.log) : PlainOut (sendsOf r.broadcastAppend) :=
  fun m mem => appendToPeerPlain plain m.1 m (broadcastSent r mem).2.2

theorem becomeLeaderPlain {r : Raft} (plain : PlainLog r.log) : PlainOut (sendsOf r.becomeLeader.2) := by
  have same : PlainLog r.becomeLeader.1.log := plain
  exact broadcastPlain same

theorem becomeCandidatePlain {r : Raft} (plain : PlainLog r.log) (draw) :
    PlainEffect r (r.becomeCandidate draw).1 (sendsOf (r.becomeCandidate draw).2) := by
  have asked : PlainOut (sendsOf (campaignActions r)) := by
    intro m mem
    rw [(campaignSent r mem).2.2]
    trivial
  rw [becomeCandidateEq]
  split
  · refine ⟨rfl,rfl,plain,?_⟩
    rw [sendsOfAppend]
    exact asked.append (becomeLeaderPlain (r := campaigning r draw) plain)
  · exact ⟨rfl,rfl,plain,asked⟩

theorem tickPlain (plain : PlainLog r.log) (ms draw) :
    PlainEffect r (r.tick ms draw).1 (sendsOf (r.tick ms draw).2) := by
  unfold tick
  split
  · split
    · exact ⟨rfl,rfl,plain,broadcastPlain (r := {r with heartbeatRemainingMs := _}) plain⟩
    · exact ⟨rfl,rfl,plain,plainOutNil⟩
  · rename_i was
    split
    · unfold startElection
      rw [if_neg was]
      exact becomeCandidatePlain plain draw
    · exact ⟨rfl,rfl,plain,plainOutNil⟩

theorem observePlain (plain : PlainLog r.log) (term draw) :
    PlainEffect r (r.observeTerm term draw).1 (sendsOf (r.observeTerm term draw).2) := by
  unfold observeTerm
  split <;> exact ⟨rfl,rfl,plain,plainOutNil⟩

theorem requestVotePlain (plain : PlainLog r.log) (sender req draw) :
    PlainEffect r (r.handleRequestVote sender req draw).1 (outputs sender (r.handleRequestVote sender req draw).2.1
        (r.handleRequestVote sender req draw).2.2) := by
  have seen := observePlain plain req.term draw
  unfold handleRequestVote
  split
  · exact ⟨rfl,rfl,plain,plainOutNil.cons trivial⟩
  · dsimp only
    split
    · refine ⟨seen.config,seen.joint,seen.log,?_⟩
      simp only [outputs,sendsOfAppend]
      exact (seen.sent.append plainOutNil).cons trivial
    · exact ⟨seen.config,seen.joint,seen.log,seen.sent.cons trivial⟩

theorem acceptPlain (plain : PlainLog r.log) (req draw) :
    PlainEffect r (r.acceptLeader req draw).1 (sendsOf (r.acceptLeader req draw).2) := by
  unfold acceptLeader
  split <;> exact ⟨rfl,rfl,plain,plainOutNil⟩

theorem storePlain (plain : PlainLog r.log) (entries : ∀ e ∈ req.entries, PlainEntry e) :
    PlainEffect r (r.storeEntries req).1 (sendsOf (r.storeEntries req).2) := by
  unfold storeEntries
  split
  · refine ⟨rfl,rfl,?_,plainOutNil⟩
    intro e mem
    simp only [appendEntries,truncateEntries] at mem
    rcases mem_append.mp mem with old | new
    · exact plain e (mem_of_mem_take old)
    · exact entries e new
  · exact ⟨rfl,rfl,plain,plainOutNil⟩

theorem followCommitPlain (plain : PlainLog r.log) (req : AppendEntriesReq) : r.followCommit req = (r,[]) ∨
    ∃ k, k = min req.leaderCommit r.log.lastIndex ∧ r.hard.commitIndex < req.leaderCommit ∧ r.log.termAt k = req.term ∧
      r.followCommit req = (committed r k,[.persistHardState] ++
        applyActions (commandsOf (between r.log r.hard.lastApplied k)) []) := by
  unfold followCommit
  split
  · rename_i more
    dsimp only
    split
    · rename_i own
      refine .inr ⟨_,rfl,more,own,?_⟩
      rw [applyCommittedPlain (r.setCommit (min req.leaderCommit r.log.lastIndex)) plain]
      rfl
    · exact .inl rfl
  · exact .inl rfl

theorem followCommitKept (plain : PlainLog r.log) (req) :
    PlainEffect r (r.followCommit req).1 (sendsOf (r.followCommit req).2) := by
  have silent : PlainOut (sendsOf (r.followCommit req).2) := by
    rw [followCommitSends]
    exact plainOutNil
  rcases followCommitPlain plain req with eq | ⟨k,_,_,_,eq⟩
  · rw [eq]
    exact ⟨rfl,rfl,plain,plainOutNil⟩
  · rw [eq] at silent ⊢
    exact ⟨rfl,rfl,plain,silent⟩

theorem tryAdvancePlain (plain : PlainLog r.log) : ∃ k before, Advanced r k ∧ (∀ a ∈ before, a = .persistHardState) ∧
      r.tryAdvanceCommit = ((committed r k).tryConfirmReads.1,
        before ++ applyActions (commandsOf (between r.log r.hard.lastApplied k)) [] ++
          if (committed r k).compacts then
            [.snapshot ⟨max r.hard.lastApplied k,r.log.termAt (max r.hard.lastApplied k),[]⟩] else []) := by
  obtain ⟨k,eq,advanced,_,silent⟩ := advanceSpec r
  refine ⟨k,r.advanceLoop.2,advanced,silent,?_⟩
  have applied := applyCommittedPlain (r.setCommit k) plain
  simp only [tryAdvanceCommit,eq,applied]
  by_cases h : (committed r k).compacts = true
  · have same : (tryConfirmReads ((r.setCommit k).setApplied
        (max (r.setCommit k).hard.lastApplied (r.setCommit k).hard.commitIndex))).1.compacts =
        true := h
    rw [if_pos h,if_pos same]
    simp only [tryConfirmReads,append_nil]
    rfl
  · have same : ¬ (tryConfirmReads ((r.setCommit k).setApplied
        (max (r.setCommit k).hard.lastApplied (r.setCommit k).hard.commitIndex))).1.compacts =
        true := h
    rw [if_neg h,if_neg same]
    simp only [tryConfirmReads,append_nil]
    rfl

theorem tryAdvanceKept {r : Raft} (plain : PlainLog r.log) :
    r.tryAdvanceCommit.1.config = r.config ∧ r.tryAdvanceCommit.1.jointConfig = r.jointConfig ∧
    r.tryAdvanceCommit.1.log = r.log ∧ r.tryAdvanceCommit.1.progress = r.progress ∧
    r.tryAdvanceCommit.1.soft = r.soft := by
  obtain ⟨k,_,_,_,eq⟩ := tryAdvancePlain plain
  rw [eq]
  exact ⟨rfl,rfl,rfl,rfl,rfl⟩

theorem appendEntriesPlain (plain : PlainLog r.log) (sender draw) (entries : ∀ e ∈ req.entries, PlainEntry e) : PlainEffect r (r.handleAppendEntries sender req draw).1
      (outputs sender (r.handleAppendEntries sender req draw).2.1 (r.handleAppendEntries sender req draw).2.2) := by
  have accepted := acceptPlain plain req draw
  unfold handleAppendEntries
  split
  · exact ⟨rfl,rfl,plain,plainOutNil.cons trivial⟩
  · dsimp only [Raft.replicate]
    split
    · exact ⟨accepted.config,accepted.joint,accepted.log,accepted.sent.cons trivial⟩
    · have stored := storePlain accepted.log entries
      have followed := followCommitKept stored.log req
      refine ⟨followed.config.trans (stored.config.trans accepted.config),
        followed.joint.trans (stored.joint.trans accepted.joint),followed.log,?_⟩
      simp only [outputs,sendsOfAppend]
      exact ((accepted.sent.append stored.sent).append followed.sent).cons trivial

theorem installSnapshotPlain (plain : PlainLog r.log) (sender req draw) :
    PlainEffect r (r.handleInstallSnapshot sender req draw).1
      (outputs sender (r.handleInstallSnapshot sender req draw).2.1 (r.handleInstallSnapshot sender req draw).2.2) := by
  unfold handleInstallSnapshot
  split
  · have restored : PlainLog ((r.becomeFollower req.term (some req.leaderId) draw).1.restoreLog
        req.lastIncludedIndex req.lastIncludedTerm).log := by
      intro e mem
      simp only [restoreLog,restoreEntries] at mem
      rw [eq_of_mem_replicate mem]
      exact fillerPlain _
    simp only [outputs,sendsOfAppend,finishSends]
    dsimp only [finishSnapshot]
    split <;> exact ⟨rfl,rfl,restored,(plainOutNil.append plainOutNil).cons trivial⟩
  · exact ⟨rfl,rfl,plain,plainOutNil.cons trivial⟩

theorem readIndexPlain (plain : PlainLog r.log) (sender req) : PlainEffect r (r.handleReadIndex sender req).1
      (outputs sender (r.handleReadIndex sender req).2.1 (r.handleReadIndex sender req).2.2) := by
  unfold handleReadIndex
  split
  · exact ⟨rfl,rfl,plain,plainOutNil⟩
  · refine ⟨rfl,rfl,plain,?_⟩
    simp only [outputs,sendsOfAppend]
    exact ((broadcastPlain (r := r.pushRead req.readId r.log.lastIndex) plain).append plainOutNil).cons trivial

theorem voteResponsePlain {r : Raft} (plain : PlainLog r.log) (sender resp draw) :
    PlainEffect r (r.stepVoteResponse sender resp draw).1 (sendsOf (r.stepVoteResponse sender resp draw).2) := by
  unfold stepVoteResponse
  split
  · exact ⟨rfl,rfl,plain,plainOutNil⟩
  · split
    · exact ⟨rfl,rfl,plain,plainOutNil⟩
    · rw [countVoteKept]
      dsimp only
      split
      · exact ⟨rfl,rfl,plain,becomeLeaderPlain plain⟩
      · exact ⟨rfl,rfl,plain,plainOutNil⟩

theorem appendResponsePlain {r : Raft} (plain : PlainLog r.log) (sender resp draw) :
    PlainEffect r (r.stepAppendResponse sender resp draw).1 (sendsOf (r.stepAppendResponse sender resp draw).2) := by
  unfold stepAppendResponse
  split
  · exact ⟨rfl,rfl,plain,plainOutNil⟩
  · split
    · exact ⟨rfl,rfl,plain,plainOutNil⟩
    · split
      · exact ⟨rfl,rfl,plain,plainOutNil⟩
      · rename_i p _
        have recorded : PlainLog (r.recordAck sender p resp).log := plain
        obtain ⟨config,joint,log,_⟩ := tryAdvanceKept recorded
        have after : PlainLog (r.recordAck sender p resp).tryAdvanceCommit.1.log := by
          rw [log]
          exact recorded
        dsimp only
        split_ifs
        · refine ⟨config,joint,after,?_⟩
          simp only [sendsOfAppend,tryAdvanceSends,nil_append]
          exact appendToPeerPlain after sender
        · refine ⟨config,joint,after,?_⟩
          rw [tryAdvanceSends]
          exact plainOutNil

theorem dispatchPlain (plain : PlainLog r.log) (sender draw) (incoming : PlainMsg msg) :
    PlainEffect r (RaftNode.dispatch r sender msg draw).1 (outputs sender (RaftNode.dispatch r sender msg draw).2.1
        (RaftNode.dispatch r sender msg draw).2.2) := by
  cases msg with
  | requestVote req => exact requestVotePlain plain sender req draw
  | requestVoteResp resp => exact voteResponsePlain plain sender resp draw
  | appendEntries => exact appendEntriesPlain plain sender draw incoming
  | appendEntriesResp resp => exact appendResponsePlain plain sender resp draw
  | installSnapshot req => exact installSnapshotPlain plain sender req draw
  | installSnapshotResp | readIndexResp => exact ⟨rfl,rfl,plain,plainOutNil.cons trivial⟩
  | readIndex req => exact readIndexPlain plain sender req

theorem applyActionsCovers (cmds) : Covers PlainEntry (applyActions cmds []) := by
  refine ⟨fillerPlain,fun i es mem => ?_⟩
  rw [applyPlainActions] at mem
  split at mem <;> simp at mem

theorem followCommitCovers {r : Raft} (plain : PlainLog r.log) (req) : Covers PlainEntry (r.followCommit req).2 := by
  rcases followCommitPlain plain req with eq | ⟨k,_,_,_,eq⟩ <;> rw [eq]
  · exact bareNil.covers fillerPlain
  · exact coversAppend (barePersist.covers fillerPlain) (applyActionsCovers _)

theorem storeCovers (r : Raft)
    (entries : ∀ e ∈ req.entries, PlainEntry e) : Covers PlainEntry (r.storeEntries req).2 := by
  refine ⟨fillerPlain,fun i es mem => ?_⟩
  unfold storeEntries at mem
  split at mem
  · cases mem_singleton.mp mem
    exact entries
  · cases mem

theorem appendEntriesCovers {r : Raft} (plain : PlainLog r.log) (sender draw) (entries : ∀ e ∈ req.entries, PlainEntry e) :
    Covers PlainEntry (r.handleAppendEntries sender req draw).2.2 := by
  have accepted := acceptPlain plain req draw
  have bare := (acceptBare r req draw).covers fillerPlain
  unfold handleAppendEntries
  split
  · exact bareNil.covers fillerPlain
  · dsimp only [Raft.replicate]
    split
    · exact bare
    · exact coversAppend (coversAppend bare (storeCovers _ entries))
        (followCommitCovers (storePlain accepted.log entries).log req)

theorem installSnapshotCovers (r : Raft) (sender req draw) :
    Covers PlainEntry (r.handleInstallSnapshot sender req draw).2.2 := by
  refine ⟨fillerPlain,fun i es mem => ?_⟩
  simp only [handleInstallSnapshot,becomeFollower,finishSnapshot] at mem
  split at mem
  · split at mem <;> simp at mem
  · cases mem

theorem appendResponseCovers {r : Raft} (plain : PlainLog r.log) (sender resp draw) :
    Covers PlainEntry (r.stepAppendResponse sender resp draw).2 := by
  unfold stepAppendResponse
  split
  · exact barePersist.covers fillerPlain
  · split
    · exact bareNil.covers fillerPlain
    · split
      · exact bareNil.covers fillerPlain
      · rename_i p _
        have recorded : PlainLog (r.recordAck sender p resp).log := plain
        have advanced : Covers PlainEntry (r.recordAck sender p resp).tryAdvanceCommit.2 := by
          obtain ⟨k,_,_,silent,eq⟩ := tryAdvancePlain recorded
          rw [eq]
          refine coversAppend (coversAppend ?_ (applyActionsCovers _)) ?_
          · exact Bare.covers (fun a mem => .inl (silent a mem)) fillerPlain
          · refine ⟨fillerPlain,fun i es mem => ?_⟩
            split at mem <;> simp at mem
        dsimp only
        split_ifs
        · exact coversAppend advanced ((appendToPeerBare _ sender).covers fillerPlain)
        · exact advanced

theorem dispatchCovers {r : Raft} (plain : PlainLog r.log) (sender draw)
    (incoming : PlainMsg msg) : Covers PlainEntry (RaftNode.dispatch r sender msg draw).2.2 := by
  cases msg with
  | requestVote req => exact (requestVoteBare r sender req draw).covers fillerPlain
  | requestVoteResp resp => exact (voteResponseBare r sender resp draw).covers fillerPlain
  | appendEntries => exact appendEntriesCovers plain sender draw incoming
  | appendEntriesResp resp => exact appendResponseCovers plain sender resp draw
  | installSnapshot req => exact installSnapshotCovers r sender req draw
  | installSnapshotResp | readIndexResp => exact ⟨fillerPlain,by simp [RaftNode.dispatch,step]⟩
  | readIndex req => exact (readIndexBare r sender req).covers fillerPlain

theorem ownEntryPlain {r : Raft} (plain : PlainLog r.log)
    (command : decodeConfChange cmd = none) : PlainLog (r.appendOwn cmd).log := by
  intro e mem
  simp only [appendOwn,appendEntries] at mem
  rcases mem_append.mp mem with old | new
  · exact plain e old
  · cases mem_singleton.mp new
    exact command

end

end NoeDB.RaftPlain
