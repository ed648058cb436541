import NoeDB.RaftElection

/-! Memory against storage on one node over the memory store: which calls leave the
stored term, vote and log equal to those of the core. -/
namespace NoeDB.RaftPersistence
open RaftTypes RaftCore RaftRuntime RaftEffects RaftDurability RaftPlain List RaftNode Option Execution

def storeLog (log : RaftLog) : Action → RaftLog
  | .persistLog i es => ((log.truncateFrom (indexPrev i)).append es).1
  | .snapshot snap => log.restore snap.index snap.term []
  | _ => log

def cutLog (log : RaftLog) : Action → RaftLog
  | .snapshot snap => log.restore snap.index snap.term []
  | _ => log

theorem memExecCons (n : MemNode) (outbound action rest) : n.execLoop outbound (action :: rest) =
      (n.execOne action).1.execLoop (outbound ++ sendsOf [action]) rest := by
  cases action <;> rfl

/- The memory store never fails, so a call executes all of its actions. -/
structure MemExec (n m : MemNode) (actions : List Action) : Prop where
  applied : m.applied = n.applied ++ appliesOf actions
  store : m.storage.log = actions.foldl storeLog n.storage.log
  log : m.raft.log = actions.foldl cutLog n.raft.log
  hard : m.storage.hard = n.storage.hard ∨ m.storage.hard = n.raft.hard

theorem memExecOne (n action) : MemExec n (n.execOne action).1 [action] ∧
    (n.execOne action).1.raft.hard = n.raft.hard := by
  cases action with
  | persistHardState => exact ⟨⟨by simp [appliesOf,execOne,stored],rfl,rfl,.inr rfl⟩,rfl⟩
  | persistLog => exact ⟨⟨by simp [appliesOf,execOne,stored],rfl,rfl,.inl rfl⟩,rfl⟩
  | snapshot =>
    exact ⟨⟨by simp [appliesOf,execOne,stored,restoreLog, RaftStorage.saveSnapshot],rfl,rfl,.inl rfl⟩,rfl⟩
  | apply | send => exact ⟨⟨by simp [appliesOf,execOne],rfl,rfl,.inl rfl⟩,rfl⟩

theorem memExecLoop (n : MemNode) (outbound actions) :
    (n.execLoop outbound actions).2 = .ok (outbound ++ sendsOf actions) ∧
    MemExec n (n.execLoop outbound actions).1 actions := by
  induction actions generalizing n outbound with
  | nil => exact ⟨by simp [execLoop,stored,RaftStorage.sync], ⟨by simp [execLoop,stored],rfl,rfl,.inl rfl⟩⟩
  | cons action _ ih =>
    obtain ⟨one,same⟩ := memExecOne n action
    rw [memExecCons]
    obtain ⟨sent,more⟩ := ih (n.execOne action).1 (outbound ++ sendsOf [action])
    refine ⟨?_,?_,?_,?_,?_⟩
    · rw [sent,append_assoc,← sendsOfAppend]
      rfl
    · rw [more.applied,one.applied,append_assoc,← appliesOfAppend]
      rfl
    · rw [more.store,one.store]
      rfl
    · rw [more.log,one.log]
      rfl
    · rcases more.hard with eq | eq
      · rw [eq]
        exact one.hard
      · exact .inr (eq.trans same)

theorem memExec (n actions) : (n.exec actions).2 = .ok (sendsOf actions) ∧ MemExec n (n.exec actions).1 actions :=
  memExecLoop n [] actions

def settle (r : Raft) (actions : List Action) : Raft :=
  {r with log := actions.foldl cutLog r.log}

theorem memSettle (n : MemNode) (r' actions) : ({n with raft := r'}.exec actions).1.raft = settle r' actions := by
  rw [execCore {n with raft := r'} actions,(memExec {n with raft := r'} actions).2.log]
  rfl

theorem uncutLog (uncut : Uncut actions) (log) : actions.foldl cutLog log = log := by
  induction actions with
  | nil => rfl
  | cons action _ ih =>
    have here := uncut action mem_cons_self
    have same : cutLog log action = log := by
      cases action <;> first | rfl | cases here
    rw [foldl_cons,same]
    exact ih (fun a mem => uncut a (mem_cons_of_mem _ mem))

def LogFree (actions : List Action) : Prop :=
  ∀ a ∈ actions, ∀ log, storeLog log a = log ∧ cutLog log a = log

theorem logFreeNil : LogFree [] := by
  intro a mem
  cases mem

theorem logFreePersist : LogFree [.persistHardState] := by
  intro a mem _
  cases mem_singleton.mp mem
  exact ⟨rfl,rfl⟩

theorem LogFree.append (left : LogFree a) (right : LogFree b) : LogFree (a ++ b) := by
  intro x mem
  rcases mem_append.mp mem with h | h
  · exact left x h
  · exact right x h

theorem foldlStays {f : RaftLog → Action → RaftLog} {actions : List Action} (stays : ∀ a ∈ actions, f log a = log) :
    actions.foldl f log = log := by
  induction actions with
  | nil => rfl
  | cons action _ ih =>
    rw [foldl_cons,stays action mem_cons_self]
    exact ih fun a mem => stays a (mem_cons_of_mem _ mem)

theorem LogFree.store (free : LogFree actions) (log) : actions.foldl storeLog log = log :=
  foldlStays fun a mem => (free a mem log).1

theorem LogFree.cut (free : LogFree actions) (log) : actions.foldl cutLog log = log :=
  foldlStays fun a mem => (free a mem log).2

theorem bareLogFree (bare : Bare actions) : LogFree actions := by
  intro a mem _
  rcases bare a mem with eq | ⟨_,_,eq⟩ <;> subst eq <;> exact ⟨rfl,rfl⟩

theorem advanceLogFree (r : Raft) : LogFree r.advanceLoop.2 := by
  obtain ⟨_,_,_,_,silent⟩ := advanceSpec r
  exact bareLogFree (fun a mem => .inl (silent a mem))

section
variable [Bincode]

theorem applyEntryLogFree (r : Raft) (cmds) (free : LogFree actions) (entry) :
    LogFree (r.applyEntry cmds actions entry).2.2 := by
  cases entry with
  | none => exact free
  | some =>
    simp only [Raft.applyEntry]
    split
    · rw [confChangeActions]
      exact free.append logFreePersist
    · split <;> exact free

theorem applyLoopLogFree (rounds : Nat) (r cmds) (free : LogFree actions) :
    LogFree (Raft.applyLoop rounds r cmds actions).2.2 := by
  induction rounds generalizing r cmds actions with
  | zero => exact free
  | succ _ ih => exact ih _ _ (applyEntryLogFree r cmds free _)

theorem applyCommittedLogFree (r : Raft) : LogFree r.applyCommitted.2 := by
  have loop := applyLoopLogFree (r.hard.commitIndex - r.hard.lastApplied) r [] logFreeNil
  have command : ∀ cmds, LogFree [.apply cmds] := by
    intro _ a mem _
    cases mem_singleton.mp mem
    exact ⟨rfl,rfl⟩
  simp only [Raft.applyCommitted,Raft.applyActions]
  split <;> split
  · exact (loop.append (command _)).append logFreePersist
  · exact loop.append (command _)
  · exact loop.append logFreePersist
  · exact loop

theorem followCommitLogFree (r : Raft) (req) : LogFree (r.followCommit req).2 := by
  unfold Raft.followCommit
  split
  · dsimp only
    split
    · exact logFreePersist.append (applyCommittedLogFree _)
    · exact logFreeNil
  · exact logFreeNil

end

def LogEqual (actions : List Action) : Prop :=
  ∀ log, actions.foldl storeLog log = actions.foldl cutLog log

theorem LogFree.equal (free : LogFree actions) : LogEqual actions := by
  intro _
  rw [free.store,free.cut]

theorem LogEqual.append (left : LogEqual a) (right : LogEqual b) : LogEqual (a ++ b) := by
  intro _
  rw [foldl_append,foldl_append,left,right]

theorem installSnapshotLogs (r : Raft) (sender req draw) :
    ((r.handleInstallSnapshot sender req draw).2.2.foldl storeLog r.log =
      (r.handleInstallSnapshot sender req draw).2.2.foldl cutLog (r.handleInstallSnapshot sender req draw).1.log) ↔
    (req.done = true ∨ req.term < r.hard.currentTerm ∨
      r.log = r.log.restore req.lastIncludedIndex req.lastIncludedTerm []) := by
  unfold Raft.handleInstallSnapshot
  by_cases fresh : req.term ≥ r.hard.currentTerm
  · rw [if_pos fresh]
    have notOld : ¬ req.term < r.hard.currentTerm := by omega
    cases final : req.done with
    | true =>
      simp only [Raft.finishSnapshot,final,if_true,true_or,iff_true]
      rfl
    | false =>
      simp only [Raft.finishSnapshot,final,Bool.false_eq_true,if_false,false_or,notOld, append_nil]
      exact Iff.rfl
  · rw [if_neg fresh]
    have old : req.term < r.hard.currentTerm := by omega
    simp [old]

section
variable [Bincode]

theorem tryAdvanceLogs (r : Raft) : LogEqual r.tryAdvanceCommit.2 ∧ r.tryAdvanceCommit.1.log = r.log := by
  refine ⟨?_,(tryAdvanceUntouched r).log⟩
  have free : LogEqual (r.advanceLoop.2 ++ r.advanceLoop.1.applyCommitted.2 ++ []) :=
    (((advanceLogFree r).append (applyCommittedLogFree _)).append logFreeNil).equal
  unfold Raft.tryAdvanceCommit
  dsimp only
  split
  · exact free.append (fun _ => rfl)
  · exact free

theorem appendResponseLogs (r : Raft) (sender resp draw) : LogEqual (r.stepAppendResponse sender resp draw).2 ∧
    (r.stepAppendResponse sender resp draw).1.log = r.log := by
  unfold Raft.stepAppendResponse
  split
  · exact ⟨logFreePersist.equal,rfl⟩
  · split
    · exact ⟨logFreeNil.equal,rfl⟩
    · split
      · exact ⟨logFreeNil.equal,rfl⟩
      · rename_i p _
        obtain ⟨equal,log⟩ := tryAdvanceLogs (r.recordAck sender p resp)
        dsimp only
        split_ifs
        · exact ⟨equal.append (bareLogFree (appendToPeerBare _ sender)).equal,log⟩
        · exact ⟨equal,log⟩

theorem appendEntriesLogs (r : Raft) (sender req draw) :
    (r.handleAppendEntries sender req draw).2.2.foldl storeLog r.log =
      (r.handleAppendEntries sender req draw).2.2.foldl cutLog (r.handleAppendEntries sender req draw).1.log := by
  have accepted := bareLogFree (acceptBare r req draw)
  have kept := (acceptStable r req draw).log
  unfold Raft.handleAppendEntries
  split
  · rfl
  · dsimp only [Raft.replicate]
    split
    · rw [accepted.store,accepted.cut,kept]
    · have followed := followCommitLogFree ((r.acceptLeader req draw).1.storeEntries req).1 req
      have log := (followCommitCounters ((r.acceptLeader req draw).1.storeEntries req).1 req).1
      simp only [foldl_append,accepted.store,accepted.cut,followed.store,followed.cut,log]
      unfold Raft.storeEntries
      split
      · simp [foldl_cons,foldl_nil,storeLog,cutLog,kept,indexNext,indexPrev]
      · exact kept.symm

end

theorem ownEntryLogs (r : Raft) (cmd) (bare : Bare more) : ([r.persistOwn cmd] ++ more).foldl storeLog r.log =
      ([r.persistOwn cmd] ++ more).foldl cutLog (r.appendOwn cmd).log := by
  have free := bareLogFree bare
  have whole : r.log.truncateFrom r.log.lastIndex = r.log := by
    apply RaftLog.ext
    rw [RaftLog.truncateEntries,RaftLog.lastIndexSucc,take_length]
  simp only [foldl_append,free.store,free.cut,foldl_cons,foldl_nil,
    Raft.persistOwn,storeLog,cutLog,indexNext,indexPrev,Nat.add_sub_cancel,whole,Raft.appendOwn]

/-! One node on its own, called in any order with any messages. -/

inductive NodeCall where
  | tick (ms draw : Nat)
  | step (sender : NodeId) (msg : RpcMessage) (draw : Nat)
  | propose (cmd : Command)
  | readIndex (readId : Nat)
  deriving DecidableEq, Repr

def accepted {α : Type} (out : MemNode × Except Error α) : Option MemNode :=
  match out.2 with
  | .ok _ => some out.1
  | .error _ => none

structure InSync (n : MemNode) : Prop where
  term : n.storage.hard.currentTerm = n.raft.hard.currentTerm
  vote : n.storage.hard.votedFor = n.raft.hard.votedFor
  log : n.storage.log = n.raft.log

section
variable [Bincode]

def callStep (n : MemNode) : NodeCall → Option MemNode
  | .tick ms draw => accepted (n.tickMs ms draw)
  | .step sender msg draw => accepted (n.step sender msg draw)
  | .propose cmd => accepted (n.propose cmd)
  | .readIndex readId => accepted (n.readIndex readId)

def Whole (n : MemNode) : NodeCall → Prop
  | .step _ (.installSnapshot req) _ => req.done = true ∨ req.term < n.raft.hard.currentTerm ∨
      n.raft.log = n.raft.log.restore req.lastIncludedIndex req.lastIncludedTerm []
  | _ => True

theorem dispatchLogs (r : Raft) (sender msg draw) : ((dispatch r sender msg draw).2.2.foldl storeLog r.log =
      (dispatch r sender msg draw).2.2.foldl cutLog (dispatch r sender msg draw).1.log) ↔
    (match msg with
      | .installSnapshot req => req.done = true ∨ req.term < r.hard.currentTerm ∨
          r.log = r.log.restore req.lastIncludedIndex req.lastIncludedTerm []
      | _ => True) := by
  cases msg with
  | requestVote req =>
    have free := bareLogFree (requestVoteBare r sender req draw)
    simp [dispatch,Raft.step,free.store,free.cut,(requestVoteStable r sender req draw).log]
  | requestVoteResp resp =>
    have free := bareLogFree (voteResponseBare r sender resp draw)
    simp [dispatch,free.store,free.cut,(voteResponseStable r sender resp draw).log]
  | appendEntries =>
    simp [dispatch,Raft.step,appendEntriesLogs]
  | appendEntriesResp resp =>
    obtain ⟨equal,log⟩ := appendResponseLogs r sender resp draw
    simp [dispatch,log,equal r.log]
  | installSnapshot req => exact installSnapshotLogs r sender req draw
  | installSnapshotResp | readIndexResp => exact ⟨fun _ => trivial,fun _ => rfl⟩
  | readIndex req =>
    have free := bareLogFree (readIndexBare r sender req)
    simp [dispatch,Raft.step,free.store,free.cut,(readIndexStable r sender req).log]

end

theorem acceptedExec (n : MemNode) (actions) : accepted (n.exec actions) = some (n.exec actions).1 := by
  simp [accepted,(memExec n actions).1]

theorem effectSaved (effect : VoteEffect r r' incoming out saved) :
    (r'.hard.currentTerm = r.hard.currentTerm ∧ r'.hard.votedFor = r.hard.votedFor) ∨ saved := by
  cases effect with
  | keep term vote role votes quiet
  | count _ _ _ _ _ term vote => exact .inl ⟨term,vote⟩
  | follow term vote role votes persist quiet
  | grant sender req cause up term free vote standing upToDate persist sent
  | campaign _ _ _ _ _ _ persist => exact .inr persist

section
variable [Bincode]

structure CallCore (n m : MemNode) (call : NodeCall) (r' : Raft) (actions : List Action) : Prop where
  node : m = ({n with raft := r'}.exec actions).1
  hard : (r'.hard.currentTerm = n.raft.hard.currentTerm ∧
    r'.hard.votedFor = n.raft.hard.votedFor) ∨ .persistHardState ∈ actions
  logs : actions.foldl storeLog n.raft.log = actions.foldl cutLog r'.log ↔ Whole n call

theorem acceptedStep (n : MemNode) (sender msg draw) : accepted (n.step sender msg draw) =
    some ({n with raft := (dispatch n.raft sender msg draw).1}.exec (dispatch n.raft sender msg draw).2.2).1 := by
  simp [accepted,step,(memExec _ _).1,Except.map]

theorem callCases (done : callStep n call = some m) : ∃ r' actions, CallCore n m call r' actions := by
  cases call with
  | tick ms draw =>
    simp only [callStep,tickMs,acceptedExec] at done
    have free := bareLogFree (tickBare n.raft ms draw)
    refine ⟨_,_,(some.inj done).symm,effectSaved (tickEffect n.raft ms draw),?_⟩
    simp only [free.store,free.cut,(tickStable n.raft ms draw).log,Whole]
  | step sender msg draw =>
    simp only [callStep,acceptedStep] at done
    refine ⟨_,_,(some.inj done).symm,effectSaved (dispatchEffect n.raft sender msg draw),?_⟩
    rw [dispatchLogs]
    cases msg <;> exact Iff.rfl
  | propose cmd =>
    by_cases leads : n.raft.soft.role = .leader
    · simp only [callStep,propose,Raft.propose,leads,ne_eq,not_true_eq_false,if_false,execResult,
        acceptedExec] at done
      refine ⟨_,_,(some.inj done).symm,.inl ⟨rfl,rfl⟩,?_⟩
      simp only [ownEntryLogs n.raft cmd (broadcastBare _),Whole]
    · simp [callStep,propose,Raft.propose,leads,execResult,accepted] at done
  | readIndex =>
    by_cases leads : n.raft.soft.role = .leader
    · simp only [callStep,readIndex,Raft.readIndex,leads,ne_eq,not_true_eq_false,if_false,execResult,
        acceptedExec] at done
      refine ⟨_,_,(some.inj done).symm,.inl ⟨rfl,rfl⟩,?_⟩
      rw [ownEntryLogs n.raft [] (broadcastBare _)]
      exact ⟨fun _ => trivial,fun _ => rfl⟩
    · simp [callStep,readIndex,Raft.readIndex,leads,execResult,accepted] at done

theorem syncStep (sync : InSync n) (done : callStep n call = some m) : InSync m ↔ Whole n call := by
  obtain ⟨r',actions,core⟩ := callCases done
  have exec := (memExec {n with raft := r'} actions).2
  have ok := (memExec {n with raft := r'} actions).1
  have kept : m.raft = {r' with log := m.raft.log} := by
    rw [core.node]
    exact execCore {n with raft := r'} actions
  have hard : m.storage.hard.currentTerm = r'.hard.currentTerm ∧ m.storage.hard.votedFor = r'.hard.votedFor := by
    rw [core.node]
    rcases core.hard with ⟨term,vote⟩ | saved
    · rcases exec.hard with eq | eq
      · rw [eq]
        exact ⟨sync.term.trans term.symm,sync.vote.trans vote.symm⟩
      · rw [eq]
        exact ⟨rfl,rfl⟩
    · have written : (({n with raft := r'} : MemNode).exec actions).1.storage.hard = r'.hard :=
        execDurable ok saved
      rw [written]
      exact ⟨rfl,rfl⟩
  rw [← core.logs]
  have store : m.storage.log = actions.foldl storeLog n.raft.log := by
    rw [core.node,exec.store,← sync.log]
  have log : m.raft.log = actions.foldl cutLog r'.log := by
    rw [core.node]
    exact exec.log
  constructor
  · intro after
    rw [← store,← log]
    exact after.log
  · intro same
    refine ⟨?_,?_,?_⟩
    · rw [kept]
      exact hard.1
    · rw [kept]
      exact hard.2
    · rw [store,log]
      exact same

end

structure Recoverable (n : MemNode) : Prop where
  sync : InSync n
  reopened : ∀ draw, ∃ m : MemNode, RaftNode.openNode n.raft.config n.storage draw = .ok m ∧
    m.raft.hard.currentTerm = n.raft.hard.currentTerm ∧
    m.raft.hard.votedFor = n.raft.hard.votedFor ∧ m.raft.log = n.raft.log

theorem recoverableIff (n) : Recoverable n ↔ InSync n := by
  refine ⟨Recoverable.sync,fun sync => ⟨sync,fun draw => ?_⟩⟩
  exact ⟨⟨Raft.new n.raft.config n.storage.hard n.storage.log draw,n.storage,[]⟩,rfl,sync.term, sync.vote,sync.log⟩

theorem openSync {storage} (opened : openNode config storage draw = .ok n) : InSync n := by
  cases Except.ok.inj opened
  exact ⟨rfl,rfl,rfl⟩

theorem persistenceExact [Bincode] {config : RaftConfig} {storage : MemStorage} {draw : Nat}
    {n m : MemNode} (opened : RaftNode.openNode config storage draw = .ok n) {calls : List NodeCall}
    (ran : Execution.run callStep n calls = some m) :
    Execution.Always callStep Recoverable n calls ↔ Execution.Admissible callStep Whole n calls := by
  refine alwaysIff ?_ ((recoverableIff n).mpr (openSync opened)) ran
  intro s _ _ before done
  rw [recoverableIff]
  exact syncStep before.sync done

def loneNode : MemNode := ⟨Raft.new (.simulation 1 [1,2,3]) {} .new 0,.new,[]⟩

def wholeCalls : List NodeCall :=
  [.step 2 (.requestVote ⟨1,2,0,0⟩) 0,.step 2 (.appendEntries ⟨1,2,0,0,[⟨1,[97]⟩,⟨1,[98]⟩],1⟩) 0,
    .tick 200 0,.step 3 (.installSnapshot ⟨2,3,2,1,[],0,true⟩) 0]

theorem persistenceLoneNode : Execution.Always callStep Recoverable loneNode wholeCalls ↔
    Execution.Admissible callStep Whole loneNode wholeCalls := by
  obtain ⟨m,ran,-⟩ : ∃ m ∈ run callStep loneNode wholeCalls, True := by decide +kernel
  have opened : openNode (.simulation 1 [1,2,3]) .new 0 = .ok loneNode := rfl
  exact persistenceExact opened ran

def halfSnapshot : List NodeCall :=
  [.step 2 (.appendEntries ⟨1,2,0,0,[⟨1,[97]⟩],0⟩) 0,.step 2 (.installSnapshot ⟨1,2,0,0,[],0,false⟩) 0]

theorem halfSnapshotForgets : ∃ m : MemNode, Execution.run callStep loneNode halfSnapshot = some m ∧
    m.raft.log.entries = [⟨0,[]⟩] ∧ m.storage.log.entries = [⟨0,[]⟩,⟨1,[97]⟩] ∧ ¬ Recoverable m := by
  obtain ⟨m,ran,inMemory,inStore⟩ : ∃ m ∈ run callStep loneNode halfSnapshot,
      m.raft.log.entries = [⟨0,[]⟩] ∧ m.storage.log.entries = [⟨0,[]⟩,⟨1,[97]⟩] := by decide +kernel
  refine ⟨m,ran,inMemory,inStore,?_⟩
  intro recoverable
  have same := congrArg RaftLog.entries recoverable.sync.log
  rw [inMemory,inStore] at same
  cases same

end NoeDB.RaftPersistence
