import NoeDB.RaftTruth
import NoeDB.Replication

/-! The cluster as a run of the replication protocol. Every safe step of the cluster is
a sequence of protocol steps: the protocol's terms and logs are those of the nodes, its
ledgers those of the leaders, and what the messages claim (the log of a candidate, a
vote, a piece of a ledger, an acknowledgement) is true there. -/
namespace NoeDB.RaftSimulation
open RaftTypes RaftCore RaftRuntime RaftCluster RaftEffects RaftDurability RaftPlain RaftSteps List LogEntry Nat RaftLog
open RaftProgress RaftElection RaftReplication RaftLogMatching TermLedger
open RaftTruth Replication Function

abbrev Ghost := State NodeId LogEntry

section
variable (voters : List NodeId)

structure SimNode (s : Ghost) (id : NodeId) (n : MemNode) : Prop where
  term : s.cur id = n.raft.hard.currentTerm
  log : s.log id = n.raft.log.entries
  stands : n.raft.soft.role = .candidate → s.voted n.raft.hard.currentTerm id id ∧
    (s.led n.raft.hard.currentTerm ≠ [] ∨
      s.cand id n.raft.hard.currentTerm = n.raft.log.entries)
  acked : n.raft.soft.role = .leader → n.raft.log.lastIndex < s.reach id n.raft.hard.currentTerm
  peers : n.raft.soft.role = .leader → ∀ p pr, n.raft.progress p = some pr →
    pr.nextIndex ≤ n.raft.log.lastIndex + 1 ∧
      (pr.matchIndex = 0 ∨ pr.matchIndex < s.reach p n.raft.hard.currentTerm)
  committed : ∃ t ≤ n.raft.hard.currentTerm, Settled LogEntry.term voters s t n.raft.hard.commitIndex ∧
    n.raft.log.entries.take (n.raft.hard.commitIndex+1) =
      (s.led t).take (n.raft.hard.commitIndex+1)
  level : n.raft.hard.lastApplied = n.raft.hard.commitIndex
  applied : n.applied =
    commandsOf ((n.raft.log.entries.take (n.raft.hard.commitIndex+1)).drop 1)

structure Stood (s : Ghost) (x : NodeId) (req : RequestVoteReq) : Prop where
  ran : s.cand x req.term ≠ []
  length : (s.cand x req.term).length = req.lastLogIndex + 1
  last : lastTerm LogEntry.term (s.cand x req.term) = req.lastLogTerm

structure Sent (s : Ghost) (req : AppendEntriesReq) : Prop where
  prev : ∃ e, (s.led req.term)[req.prevLogIndex]? = some e ∧ e.term = req.prevLogTerm
  entries : req.entries <+: (s.led req.term).drop (req.prevLogIndex+1)
  commit : ∃ t ≤ req.term, Settled LogEntry.term voters s t req.leaderCommit

def SimMsg (s : Ghost) (env : Envelope) : Prop :=
  match env.msg with
  | .requestVote req => Stood s env.sender req
  | .requestVoteResp resp => resp.voteGranted = true → s.voted resp.term env.sender env.target
  | .appendEntries req => Sent voters s req
  | .appendEntriesResp resp => resp.success = true →
      resp.lastLogIndex < s.reach env.sender resp.term
  | _ => True

structure Sim [Bincode] (c : Cluster MemStorage) (s : Ghost) : Prop where
  logs : Logs voters s.led c
  sound : Sound LogEntry.term voters s
  nodes : ∀ {id n}, c.nodes id = some n → SimNode voters s id n
  net : ∀ env ∈ c.net, SimMsg voters s env

structure Moves (s s' : Ghost) (id : NodeId) (n n' : MemNode) : Prop where
  steps : Steps LogEntry.term voters s s'
  led : s'.led = ledgerAfter s.led n'.raft
  others : ∀ v, v ≠ id → s'.cur v = s.cur v ∧ s'.log v = s.log v

end

section
variable {voters : List NodeId} {c : Cluster MemStorage} {s s' : Ghost} {id : NodeId}
  {n n' : MemNode} {out : Outbound}

theorem ledTake (settled : Settled term voters s t k) (grows : Grows s.led s'.led) :
    (s'.led t).take (k+1) = (s.led t).take (k+1) := by
  obtain ⟨_,eq⟩ := grows t
  rw [← eq,take_append_of_le_length settled.length]

theorem Moves.sent (moves : Moves voters s s' id n n') (sent : Sent voters s req) : Sent voters s' req := by
  have later := stepsLater moves.steps
  obtain ⟨e,there,stamp⟩ := sent.prev
  obtain ⟨t,before,known⟩ := sent.commit
  obtain ⟨_,eq⟩ := later.led req.term
  have inside : req.prevLogIndex < (s.led req.term).length := by
    by_contra beyond
    rw [List.getElem?_eq_none (by omega)] at there
    cases there
  refine ⟨⟨e,?_,stamp⟩,?_,t,before,known.later (stepsLater moves.steps)⟩
  · rw [← eq,List.getElem?_append_left inside]
    exact there
  · rw [← eq,drop_append_of_le_length (by omega)]
    exact sent.entries.trans (List.prefix_append _ _)

theorem Moves.msg (moves : Moves voters s s' id n n') (msg : SimMsg voters s env) : SimMsg voters s' env := by
  have later := stepsLater moves.steps
  obtain ⟨_,_,body⟩ := env
  cases body with
  | requestVote =>
    obtain ⟨ran,length,last⟩ := msg
    have same := later.cand ran
    exact ⟨by rw [same]; exact ran,by rw [same]; exact length,by rw [same]; exact last⟩
  | requestVoteResp => exact fun granted => later.voted (msg granted)
  | appendEntries => exact moves.sent msg
  | appendEntriesResp =>
    exact fun success => lt_of_lt_of_le (msg success) (later.reach _ _)
  | _ => trivial

theorem stoodLater {α : Type} {s s' : State NodeId α} (later : Later s s') {log} (filled : log ≠ [])
    (stood : s.led t ≠ [] ∨ s.cand x t = log) : s'.led t ≠ [] ∨ s'.cand x t = log := by
  rcases stood with opened | same
  · left
    intro empty
    have front := later.led t
    rw [empty,List.prefix_nil] at front
    exact opened front
  · right
    rw [later.cand (by rw [same]; exact filled),same]

theorem Moves.other (moves : Moves voters s s' id n n') {who m} (apart : who ≠ id) (old : SimNode voters s who m) :
    SimNode voters s' who m := by
  have later := stepsLater moves.steps
  obtain ⟨cur,log⟩ := moves.others who apart
  obtain ⟨t,before,known,same⟩ := old.committed
  refine ⟨cur.trans old.term,log.trans old.log,?_,?_,?_,?_,old.level,old.applied⟩
  · intro candidate
    obtain ⟨voted,stood⟩ := old.stands candidate
    exact ⟨later.voted voted,stoodLater later m.raft.log.nonempty stood⟩
  · intro leads
    exact lt_of_lt_of_le (old.acked leads) (later.reach _ _)
  · intro leads p pr at'
    obtain ⟨next,matched⟩ := old.peers leads p pr at'
    exact ⟨next,matched.imp_right (fun held => lt_of_lt_of_le held (later.reach _ _))⟩
  · exact ⟨t,before,known.later (stepsLater moves.steps),by rw [ledTake known later.led]; exact same⟩

theorem ordinaryMsg (node : SimNode voters s id n)
    (written : n.raft.soft.role = .leader → s.led n.raft.hard.currentTerm = n.raft.log.entries)
    (nexts : n.raft.soft.role = .leader → ∀ p pr, n.raft.progress p = some pr → 1 ≤ pr.nextIndex) (ordinary : Ordinary n.raft m) : SimMsg voters s ⟨id,m.1,m.2⟩ := by
  obtain ⟨peer,body⟩ := m
  cases body with
  | requestVote => exact ordinary.elim
  | requestVoteResp resp =>
    intro granted
    have refused : resp.voteGranted = false := ordinary
    rw [refused] at granted
    cases granted
  | appendEntriesResp resp =>
    intro success
    have failed : resp.success = false := ordinary
    rw [failed] at success
    cases success
  | appendEntries req =>
    obtain ⟨leads,_,eq⟩ := ordinary
    obtain ⟨t,before,known,_⟩ := node.committed
    have bounds : 1 ≤ n.raft.nextFor peer ∧ n.raft.nextFor peer ≤ n.raft.log.lastIndex + 1 := by
      unfold Raft.nextFor
      split
      · rename_i p there
        exact ⟨nexts leads peer p there,(node.peers leads peer p there).1⟩
      · exact ⟨le_refl 1,by omega⟩
    have length := n.raft.log.lastIndexSucc
    have inside : n.raft.nextFor peer - 1 < n.raft.log.entries.length := by omega
    show Sent voters s req
    rw [eq]
    refine ⟨⟨n.raft.log.entries[n.raft.nextFor peer - 1],?_,?_⟩,?_,t,before,known⟩
    · show (s.led n.raft.hard.currentTerm)[n.raft.nextFor peer - 1]? = _
      rw [written leads,List.getElem?_eq_getElem inside]
    · exact (termAtOf (List.getElem?_eq_getElem inside)).symm
    · show (n.raft.log.sliceFrom (n.raft.nextFor peer)).take n.raft.config.maxAppendBatch <+:
        (s.led n.raft.hard.currentTerm).drop (n.raft.nextFor peer - 1 + 1)
      rw [written leads,sliceEntries,Nat.sub_add_cancel bounds.1]
      exact List.take_prefix _ _
  | _ => trivial

theorem Moves.stable (moves : Moves voters s s' id n n') (old : SimNode voters s id n) (stable : Stable n.raft n'.raft)
    (up : n.raft.hard.currentTerm ≤ n'.raft.hard.currentTerm) : ∃ t ≤ n'.raft.hard.currentTerm,
      Settled term voters s' t n'.raft.hard.commitIndex ∧
      n'.raft.log.entries.take (n'.raft.hard.commitIndex+1) = (s'.led t).take (n'.raft.hard.commitIndex+1) := by
  obtain ⟨t,before,known,same⟩ := old.committed
  rw [stable.commit,stable.log]
  refine ⟨t,before.trans up,known.later (stepsLater moves.steps),?_⟩
  rw [ledTake known (stepsLater moves.steps).led]
  exact same

theorem levelStable (old : SimNode voters s id n) (stable : Stable n.raft n'.raft) :
    n'.raft.hard.lastApplied = n'.raft.hard.commitIndex := by
  rw [stable.applied,stable.commit,old.level]

theorem appliedStable (old : SimNode voters s id n) (stable : Stable n.raft n'.raft)
    (none : n'.applied = n.applied) : n'.applied =
      commandsOf ((n'.raft.log.entries.take (n'.raft.hard.commitIndex+1)).drop 1) := by
  rw [none,stable.commit,stable.log,old.applied]

theorem lastTermLog (log : RaftLog) : lastTerm term log.entries = log.termAt log.lastIndex := by
  unfold lastTerm termAt lastIndex
  cases log.entries[log.entries.length - 1]? <;> rfl

theorem upToDateOf {r : Raft} (stood : Stood s x req)
    (upToDate : r.logIsUpToDate req.lastLogIndex req.lastLogTerm = true) :
    UpToDate term (s.cand x req.term) r.log.entries := by
  have length := r.log.lastIndexSucc
  simp only [Raft.logIsUpToDate,Bool.or_eq_true,Bool.and_eq_true,decide_eq_true_eq] at upToDate
  unfold UpToDate
  rw [stood.last,stood.length,lastTermLog,← length]
  rcases upToDate with later | ⟨same,_⟩
  · exact .inl later
  · exact .inr ⟨same,by omega⟩

def Stays (r r' : Raft) : Prop :=
  r'.soft.role = .follower ∨ (r'.hard.currentTerm = r.hard.currentTerm ∧
    r'.soft.role = r.soft.role ∧ (r.soft.role = .leader → r'.progress = r.progress))

theorem grantedOld (sent : ∀ m ∈ out, (∃ req, m.2 = .requestVote req) ∨ Ordinary n'.raft m)
    (granted : Granted (c.put id n' out).net v x t) : Granted c.net v x t := by
  rcases mem_append.mp granted with old | new
  · exact old
  · obtain ⟨_,mem⟩ := memPosted new
    rcases sent _ mem with ⟨_,is⟩ | ordinary
    · cases is
    · exact absurd ordinary (by simp [Ordinary])

theorem Sent.committed (sent : Sent voters s req) (sound : Sound term voters s) (le : k ≤ req.leaderCommit)
    (there : (s.led req.term)[k]? = some e) (own : e.term = req.term) : Settled term voters s req.term k := by
  obtain ⟨t,before,known⟩ := sent.commit
  rcases lt_or_eq_of_le before with _ | same
  · have below := known.below le
    have opened : s.led req.term ≠ [] := by
      intro empty
      rw [empty] at there
      cases there
    have front := below.front sound before opened
    have size : ((s.led t).take (k+1)).length = k+1 := by
      rw [length_take]
      have := below.length
      omega
    have shared := congrArg (fun l : List LogEntry => l[k]?) (List.prefix_iff_eq_take.mp front)
    simp only [size,List.getElem?_take,lt_succ_self,if_true,there] at shared
    have early := sound.bounded shared
    omega
  · exact same ▸ known.below le

theorem Sent.taken (request : Sent voters s req) (sound : Sound term voters s) {log : RaftLog}
    (front : log.entries <+: s.led req.term) (inside : k < log.entries.length) (le : k ≤ req.leaderCommit)
    (stamp : log.termAt k = req.term) : Settled term voters s req.term k ∧
      log.entries.take (k+1) = (s.led req.term).take (k+1) := by
  have here := List.getElem?_eq_getElem inside
  obtain ⟨_,eq⟩ := front
  refine ⟨request.committed sound le ?_ ((termAtOf here).symm.trans stamp),?_⟩
  · rw [← eq,List.getElem?_append_left inside]
    exact here
  · rw [← eq,take_append_of_le_length inside]

def followed (s : Ghost) (id : NodeId) (t : Nat) (log : List LogEntry) : Ghost :=
  ((s.advance id t).adopt id log).ack id t log.length

theorem followedOthers {log} (other : v ≠ id) :
    (followed s id t log).cur v = s.cur v ∧ (followed s id t log).log v = s.log v :=
  ⟨update_of_ne other _ _,update_of_ne other _ _⟩

theorem followedSteps {log} (up : s.cur id ≤ t) (opened : s.led t ≠ [])
    (front : log <+: s.led t) (keeps : ∀ p, p <+: s.log id → p <+: s.led t → p <+: log) :
    Steps term voters s (followed s id t log) := by
  refine .tail (.tail (.single (.advance up)) (.adopt (t := t) ?_ opened front keeps)) (.ack ?_ front.length_le ?_)
  · exact update_self ..
  · exact update_self ..
  · show (s.led t).take _ <+: _
    rw [← List.prefix_iff_eq_take.mp front]
    simp [State.adopt,update_self,List.prefix_rfl]

def stoodUp (s : Ghost) (id : NodeId) (t : Nat) : Ghost := ((s.advance id t).stand id t).vote id id t

theorem stoodUpSteps {t log} (up : s.cur id ≤ t) (unstood : s.cand id t = [])
    (own : s.log id = log) (filled : log ≠ []) :
    Steps term voters s (stoodUp s id t) ∧ (stoodUp s id t).cand id t = log := by
  have cand : ((s.advance id t).stand id t).cand id t = log := by
    simp [State.stand,State.advance,update_self,own]
  refine ⟨.tail (.tail (.single (.advance up)) (.stand ?_ unstood)) (.vote ?_ ?_ ?_),cand⟩
  · exact update_self ..
  · exact update_self ..
  · rw [cand]
    exact filled
  · rw [cand]
    show UpToDate term _ (s.log id)
    rw [own]
    exact .inr ⟨rfl,le_refl _⟩

theorem campaignStood (term : (campaignReq r).term = t) (cand : s.cand id t = r.log.entries) :
    Stood s id (campaignReq r) := by
  subst term
  refine ⟨?_,?_,?_⟩
  · rw [cand]
    exact r.log.nonempty
  · rw [cand]
    exact r.log.lastIndexSucc.symm
  · rw [cand,lastTermLog]
    rfl

def won (s : Ghost) (id : NodeId) (r : Raft) : Ghost :=
  (s.elect id r.hard.currentTerm).ack id r.hard.currentTerm r.log.entries.length

variable [Bincode]

theorem Moves.sim (moves : Moves voters s s' id n n') (inv : Sim voters c s)
    (found : c.nodes id = some n) (logs : Logs voters (ledgerAfter s.led n'.raft) (c.put id n' out))
    (node : SimNode voters s' id n') (sent : ∀ m ∈ out, SimMsg voters s' ⟨id,m.1,m.2⟩) :
    Sim voters (c.put id n' out) s' where
  logs := moves.led ▸ logs
  sound := soundSteps inv.sound moves.steps
  nodes := by
    intro who m there
    by_cases same : who = id
    · subst same
      have this : n' = m := by simpa [Cluster.put] using there
      exact this ▸ node
    · exact moves.other same (inv.nodes ((putElse c n' out same).symm.trans there))
  net := by
    intro env mem
    rcases mem_append.mp mem with old | new
    · exact moves.msg (inv.net env old)
    · obtain ⟨m,there,eq⟩ := mem_map.mp new
      subst eq
      exact sent m there

theorem Moves.ordinary (moves : Moves voters s s' id n n')
    (logs : Logs voters (ledgerAfter s.led n'.raft) (c.put id n' out))
    (node : SimNode voters s' id n') (ordinary : Ordinary n'.raft m) : SimMsg voters s' ⟨id,m.1,m.2⟩ := by
  have own := logs.nodes (putHere c id n' out)
  rw [← moves.led] at own
  exact ordinaryMsg node own.written own.nexts ordinary

section
variable (inv : Sim voters c s) (found : c.nodes id = some n)
include inv found

theorem stayMoves (stable : Stable n.raft n'.raft) (stays : Stays n.raft n'.raft)
    (steps : Steps term voters s s') (led : s'.led = s.led)
    (others : ∀ v, v ≠ id → s'.cur v = s.cur v ∧ s'.log v = s.log v) : Moves voters s s' id n n' := by
  refine ⟨steps,?_,others⟩
  rw [led]
  unfold ledgerAfter
  rcases stays with follower | ⟨term,role,_⟩
  · rw [follower,if_neg (by simp)]
  · split
    · rename_i leads
      rw [term,stable.log,← (inv.logs.nodes found).written (role ▸ leads),update_eq_self]
    · rfl

theorem stayNode (moves : Moves voters s s' id n n') (stable : Stable n.raft n'.raft)
    (up : n.raft.hard.currentTerm ≤ n'.raft.hard.currentTerm) (stays : Stays n.raft n'.raft)
    (none : n'.applied = n.applied) (cur : s'.cur id = n'.raft.hard.currentTerm)
    (log : s'.log id = s.log id) : SimNode voters s' id n' := by
  have old := inv.nodes found
  have later := stepsLater moves.steps
  have left : n'.raft.soft.role = .follower → ∀ {P : Prop} {role}, role ≠ Role.follower →
      n'.raft.soft.role = role → P := by
    intro follower P role other is
    exact absurd (is.symm.trans follower) other
  refine ⟨cur,?_,?_,?_,?_,moves.stable old stable up,levelStable old stable, appliedStable old stable none⟩
  · rw [log,old.log,stable.log]
  · intro candidate
    rcases stays with follower | ⟨term,role,_⟩
    · exact left follower (by simp) candidate
    · obtain ⟨voted,stood⟩ := old.stands (role ▸ candidate)
      rw [term,stable.log]
      exact ⟨later.voted voted,stoodLater later n.raft.log.nonempty stood⟩
  · intro leads
    rcases stays with follower | ⟨term,role,_⟩
    · exact left follower (by simp) leads
    · rw [term,stable.log]
      exact lt_of_lt_of_le (old.acked (role ▸ leads)) (later.reach _ _)
  · intro leads p pr there
    rcases stays with follower | ⟨term,role,progress⟩
    · exact left follower (by simp) leads
    · rw [progress (role ▸ leads)] at there
      rw [term,stable.log]
      obtain ⟨next,matched⟩ := old.peers (role ▸ leads) p pr there
      exact ⟨next,matched.imp_right (fun held => lt_of_lt_of_le held (later.reach _ _))⟩

theorem committedKept {log} (up : n.raft.hard.currentTerm ≤ t) (opened : s.led t ≠ [])
    (keeps : ∀ p, p <+: n.raft.log.entries → p <+: s.led t → p <+: log) :
    log.take (n.raft.hard.commitIndex+1) = n.raft.log.entries.take (n.raft.hard.commitIndex+1) ∧
      n.raft.hard.commitIndex+1 ≤ log.length := by
  obtain ⟨_,before,known,same⟩ := (inv.nodes found).committed
  have reaches := known.length
  have kept : n.raft.log.entries.take (n.raft.hard.commitIndex+1) <+: log := by
    refine keeps _ (List.take_prefix _ _) ?_
    rw [same]
    exact known.front inv.sound (before.trans up) opened
  have size : (n.raft.log.entries.take (n.raft.hard.commitIndex+1)).length = n.raft.hard.commitIndex+1 := by
    rw [same,length_take]
    omega
  have cut := List.prefix_iff_eq_take.mp kept
  have long := kept.length_le
  rw [size] at cut long
  exact ⟨cut.symm,long⟩

variable (logs : Logs voters (ledgerAfter s.led n'.raft) (c.put id n' out))
include logs

theorem simStay (stable : Stable n.raft n'.raft)
    (up : n.raft.hard.currentTerm ≤ n'.raft.hard.currentTerm) (stays : Stays n.raft n'.raft)
    (none : n'.applied = n.applied) (sent : AllOrdinary n'.raft out) :
    ∃ s', Moves voters s s' id n n' ∧ Sim voters (c.put id n' out) s' := by
  have term := (inv.nodes found).term
  have moves : Moves voters s (s.advance id n'.raft.hard.currentTerm) id n n' :=
    stayMoves inv found stable stays (.single (.advance (by omega))) rfl (fun v other => ⟨update_of_ne other _ _,rfl⟩)
  have node : SimNode voters _ id n' := stayNode inv found moves stable up stays none (update_self ..) rfl
  exact ⟨_,moves,moves.sim inv found logs node (fun m mem => moves.ordinary logs node (sent m mem))⟩

theorem simGrant {sender : NodeId} (arrived : ⟨sender,id,.requestVote req⟩ ∈ c.net) (stable : Stable n.raft n'.raft)
    (up : n.raft.hard.currentTerm ≤ req.term) (term : n'.raft.hard.currentTerm = req.term)
    (upToDate : n.raft.logIsUpToDate req.lastLogIndex req.lastLogTerm = true)
    (stays : Stays n.raft n'.raft) (none : n'.applied = n.applied)
    (sent : out = [(sender,.requestVoteResp ⟨req.term,true⟩)]) :
    ∃ s', Moves voters s s' id n n' ∧ Sim voters (c.put id n' out) s' := by
  have old := inv.nodes found
  have stood : Stood s sender req := inv.net _ arrived
  have better : UpToDate LogEntry.term (s.cand sender req.term) (s.log id) := by
    rw [old.log]
    exact upToDateOf stood upToDate
  have steps : Steps LogEntry.term voters s ((s.advance id req.term).vote id sender req.term) :=
    .tail (.single (.advance (by rw [old.term]; exact up))) (.vote (update_self ..) stood.ran better)
  have moves : Moves voters s ((s.advance id req.term).vote id sender req.term) id n n' :=
    stayMoves inv found stable stays steps rfl (fun v other => ⟨update_of_ne other _ _,rfl⟩)
  have node : SimNode voters _ id n' :=
    stayNode inv found moves stable (by omega) stays none ((update_self ..).trans term.symm) rfl
  refine ⟨_,moves,moves.sim inv found logs node ?_⟩
  intro m mem
  rw [sent] at mem
  cases mem_singleton.mp mem
  intro _
  exact .inr ⟨rfl,rfl,rfl⟩

end

section
variable (inv : Sim voters c s) (found : c.nodes id = some n)
  (logs : Logs voters (ledgerAfter s.led n'.raft) (c.put id n' out))
  (stable : Stable n.raft n'.raft) (none : n'.applied = n.applied)
include inv found logs stable none

theorem simWin (leads : n'.raft.soft.role = .leader) (up : n.raft.hard.currentTerm ≤ n'.raft.hard.currentTerm)
    (progress : n'.raft.progress = leaderProgress n.raft) (fresh : s.led n'.raft.hard.currentTerm = [])
    (steps : Steps term voters s s₁) (led : s₁.led = s.led)
    (cur : s₁.cur id = n'.raft.hard.currentTerm) (log : s₁.log id = n'.raft.log.entries)
    (cand : s₁.cand id n'.raft.hard.currentTerm = n'.raft.log.entries) (self : s₁.voted n'.raft.hard.currentTerm id id)
    (others : ∀ v, v ≠ id → s₁.cur v = s.cur v ∧ s₁.log v = s.log v)
    (sent : ∀ m ∈ out, ((∃ req, m.2 = .requestVote req) ∧ SimMsg voters s₁ ⟨id,m.1,m.2⟩) ∨ Ordinary n'.raft m) :
    ∃ s', Moves voters s s' id n n' ∧ Sim voters (c.put id n' out) s' := by
  have old := inv.nodes found
  have later₁ := stepsLater steps
  have majority : ∃ group, Majority.Holds voters group ∧ ∀ v ∈ group, s₁.voted n'.raft.hard.currentTerm v id := by
    obtain ⟨group,enough,all⟩ := ((logs.fixed.nodes (putHere c id n' out)).leads leads).quorum
    refine ⟨group,Majority.ofCard (fun v mem => (all v mem).1) enough,?_⟩
    intro v mem
    rcases (all v mem).2 with same | granted
    · exact same ▸ self
    · have before := grantedOld (fun m mem => (sent m mem).imp_left And.left) granted
      exact later₁.voted (inv.net _ before rfl)
  have opened : (s₁.elect id n'.raft.hard.currentTerm).led n'.raft.hard.currentTerm =
      n'.raft.log.entries := (update_self ..).trans cand
  have all : Steps term voters s (won s₁ id n'.raft) := by
    refine .tail (.tail steps (.elect (led ▸ fresh) majority)) (.ack cur ?_ ?_)
    · rw [opened]
    · rw [opened,take_length]
      exact log ▸ List.prefix_rfl
  have moves : Moves voters s (won s₁ id n'.raft) id n n' := by
    refine ⟨all,?_,others⟩
    show update s₁.led _ _ = _
    rw [ledgerLed leads,led,cand]
  have node : SimNode voters (won s₁ id n'.raft) id n' := by
    refine ⟨cur,log,?_,?_,?_,moves.stable old stable up,levelStable old stable, appliedStable old stable none⟩
    · intro candidate
      rw [leads] at candidate
      cases candidate
    · intro _
      have length := n'.raft.log.lastIndexSucc
      simp only [won,State.ack,update_self]
      omega
    · intro _ p _ there
      rw [progress,leaderProgress,freshProgressAt] at there
      split at there
      · cases there
        rw [stable.log]
        exact ⟨le_refl _,.inl rfl⟩
      · cases there
  refine ⟨_,moves,moves.sim inv found logs node ?_⟩
  intro m mem
  rcases sent m mem with ⟨⟨req,is⟩,request⟩ | ordinary
  · obtain ⟨_,_⟩ := m
    cases is
    have stood : Stood s₁ id req := request
    exact Stood.mk stood.ran stood.length stood.last
  · exact moves.ordinary logs node ordinary

theorem simCampaign (up : n.raft.hard.currentTerm < n'.raft.hard.currentTerm)
    (term : n'.raft.hard.currentTerm = termNext n.raft.hard.currentTerm)
    (fresh : n'.raft.soft.role = .leader → s.led n'.raft.hard.currentTerm = []) (role : n'.raft.soft.role = .candidate ∨
      (n'.raft.soft.role = .leader ∧ n'.raft.progress = leaderProgress n.raft))
    (sent : ∀ m ∈ out, m.2 = .requestVote (campaignReq n.raft) ∨ Ordinary n'.raft m) :
    ∃ s', Moves voters s s' id n n' ∧ Sim voters (c.put id n' out) s' := by
  have old := inv.nodes found
  have unstood : s.cand id n'.raft.hard.currentTerm = [] := by
    by_contra some
    have late := inv.sound.stood some
    rw [old.term] at late
    omega
  have log : s.log id = n'.raft.log.entries := by rw [old.log,stable.log]
  obtain ⟨steps,cand⟩ := @stoodUpSteps voters s id n'.raft.hard.currentTerm _ (by rw [old.term]; omega) unstood log
    n'.raft.log.nonempty
  have request : ∀ m ∈ out, ((∃ req, m.2 = .requestVote req) ∧
      SimMsg voters (stoodUp s id n'.raft.hard.currentTerm) ⟨id,m.1,m.2⟩) ∨ Ordinary n'.raft m := by
    intro m mem
    rcases sent m mem with is | ordinary
    · refine .inl ⟨⟨_,is⟩,?_⟩
      simp only [SimMsg,is]
      exact campaignStood term.symm (cand.trans (by rw [stable.log]))
    · exact .inr ordinary
  rcases role with candidate | ⟨leads,progress⟩
  · have moves : Moves voters s (stoodUp s id n'.raft.hard.currentTerm) id n n' := by
      refine ⟨steps,?_,fun v other => ⟨update_of_ne other _ _,rfl⟩⟩
      unfold ledgerAfter
      rw [candidate,if_neg (by simp)]
      rfl
    have node : SimNode voters (stoodUp s id n'.raft.hard.currentTerm) id n' := by
      refine ⟨update_self ..,log,?_,?_,?_,moves.stable old stable (by omega),
        levelStable old stable,appliedStable old stable none⟩
      · intro _
        exact ⟨.inr ⟨rfl,rfl,rfl⟩,.inr cand⟩
      · intro leads
        rw [candidate] at leads
        cases leads
      · intro leads
        rw [candidate] at leads
        cases leads
    refine ⟨_,moves,moves.sim inv found logs node ?_⟩
    intro m mem
    rcases request m mem with ⟨_,stood⟩ | ordinary
    · exact stood
    · exact moves.ordinary logs node ordinary
  · exact simWin inv found logs stable none leads (by omega) progress (fresh leads) steps rfl
      (update_self ..) log cand (.inr ⟨rfl,rfl,rfl⟩)
      (fun v other => ⟨update_of_ne other _ _,rfl⟩) request

theorem simCount (leads : n'.raft.soft.role = .leader) (was : n.raft.soft.role = .candidate)
    (term : n'.raft.hard.currentTerm = n.raft.hard.currentTerm) (progress : n'.raft.progress = leaderProgress n.raft)
    (fresh : s.led n'.raft.hard.currentTerm = []) (sent : AllOrdinary n'.raft out) :
    ∃ s', Moves voters s s' id n n' ∧ Sim voters (c.put id n' out) s' := by
  have old := inv.nodes found
  obtain ⟨self,stood⟩ := old.stands was
  rw [← term] at self stood
  refine simWin inv found logs stable none leads (le_of_eq term.symm) progress fresh .refl rfl
    (old.term.trans term.symm) (by rw [old.log,stable.log]) ?_ self (fun _ _ => ⟨rfl,rfl⟩)
    (fun m mem => .inr (sent m mem))
  rw [stood.resolve_left (fun opened => opened fresh),stable.log]

end

section
variable (inv : Sim voters c s) (found : c.nodes id = some n)
  (logs : Logs voters (ledgerAfter s.led n'.raft) (c.put id n' out))
include inv found logs

theorem simAccept (arrived : ⟨sender,id,.appendEntries req⟩ ∈ c.net) (sincere : Sincere n.raft.log req)
    (up : n.raft.hard.currentTerm ≤ req.term) (term : n'.raft.hard.currentTerm = req.term)
    (standing : n'.raft.soft.role = .follower ∨ (n.raft.hard.currentTerm = req.term ∧
      n'.raft.soft.role = n.raft.soft.role ∧ n.raft.soft.role ≠ .leader))
    (fits : n.raft.log.termAt req.prevLogIndex = req.prevLogTerm) (log : n'.raft.log.entries = spliced n.raft.log req)
    (commit : (n'.raft.hard.commitIndex = n.raft.hard.commitIndex ∧
        n'.raft.hard.lastApplied = n.raft.hard.lastApplied ∧ cmds = []) ∨ (n.raft.hard.commitIndex < req.leaderCommit ∧
        n'.raft.hard.commitIndex = min req.leaderCommit n'.raft.log.lastIndex ∧
        n'.raft.log.termAt n'.raft.hard.commitIndex = req.term ∧
        n'.raft.hard.lastApplied = max n.raft.hard.lastApplied n'.raft.hard.commitIndex ∧
        cmds = commandsOf (between n'.raft.log n.raft.hard.lastApplied n'.raft.hard.commitIndex)))
    (applied : n'.applied = n.applied ++ cmds)
    (sent : out = [(sender,.appendEntriesResp ⟨req.term,true,n'.raft.log.lastIndex⟩)]) :
    ∃ s', Moves voters s s' id n n' ∧ Sim voters (c.put id n' out) s' := by
  have old := inv.nodes found
  have own := (inv.logs.nodes found).consistent
  have request : Sent voters s req := inv.net _ arrived
  have length := n'.raft.log.lastIndexSucc
  have opened : s.led req.term ≠ [] := by
    intro empty
    obtain ⟨e,there,_⟩ := request.prev
    rw [empty] at there
    cases there
  have front : n'.raft.log.entries <+: s.led req.term := by
    rw [log]
    exact splicedFront inv.sound.coherent inv.logs.positive own request.prev request.entries fits sincere
  have keeps : ∀ p, p <+: n.raft.log.entries → p <+: s.led req.term → p <+: n'.raft.log.entries := by
    intro p mine theirs
    rw [log]
    exact splicedKeeps inv.sound.coherent inv.logs.positive own request.prev request.entries fits sincere mine theirs
  have notLeader : n'.raft.soft.role ≠ .leader := by
    rcases standing with follower | ⟨_,role,other⟩
    · rw [follower]
      simp
    · rw [role]
      exact other
  have steps : Steps LogEntry.term voters s (followed s id req.term n'.raft.log.entries) :=
    followedSteps (by rw [old.term]; exact up) opened front (by rw [old.log]; exact keeps)
  have moves : Moves voters s (followed s id req.term n'.raft.log.entries) id n n' := by
    refine ⟨steps,?_,fun v => followedOthers⟩
    unfold ledgerAfter
    rw [if_neg notLeader]
    rfl
  obtain ⟨still,_⟩ := committedKept inv found up opened keeps
  have node : SimNode voters (followed s id req.term n'.raft.log.entries) id n' := by
    refine ⟨(update_self ..).trans term.symm,update_self ..,?_,
      fun leads => absurd leads notLeader,fun leads => absurd leads notLeader,?_,?_,?_⟩
    · intro candidate
      rcases standing with follower | ⟨now,role,_⟩
      · rw [follower] at candidate
        cases candidate
      · have voted := (old.stands (role ▸ candidate)).1
        rw [now] at voted
        rw [term]
        exact ⟨voted,.inl opened⟩
    · rcases commit with ⟨quiet,_⟩ | ⟨more,is,stamp,_⟩
      · obtain ⟨t,_,known,same⟩ := old.committed
        rw [quiet]
        exact ⟨t,by omega,known.later (stepsLater moves.steps),still.trans same⟩
      · obtain ⟨settled,same⟩ := request.taken inv.sound front (by omega) (by omega) stamp
        exact ⟨req.term,le_of_eq term.symm,settled.later (stepsLater moves.steps),same⟩
    · have level := old.level
      rcases commit with ⟨quiet,applied,_⟩ | ⟨more,is,_,applied,_⟩ <;> omega
    · rcases commit with ⟨quiet,_,none⟩ | ⟨_,_,_,_,some⟩
      · rw [applied,none,append_nil,quiet,still]
        exact old.applied
      · have le : n.raft.hard.commitIndex ≤ n'.raft.hard.commitIndex := by omega
        rw [applied,some,old.level,takeBetween n'.raft.log le,commandsOfAppend,still,old.applied]
  refine ⟨_,moves,moves.sim inv found logs node ?_⟩
  intro m mem
  rw [sent] at mem
  cases mem_singleton.mp mem
  intro _
  show n'.raft.log.lastIndex < (followed s id req.term n'.raft.log.entries).reach id req.term
  simp only [followed,State.ack,update_self]
  omega

end

section
variable (inv : Sim voters c s) (found : c.nodes id = some n)
  (logs : Logs voters (ledgerAfter s.led n'.raft) (c.put id n' out))
  (leads : n.raft.soft.role = .leader) (role : n'.raft.soft.role = .leader)
include inv found leads

theorem ackPeers (arrived : ⟨sender,id,.appendEntriesResp resp⟩ ∈ c.net)
    (truthful : resp.success = true → resp.term = n.raft.hard.currentTerm)
    (known : n.raft.progress sender = some p)
    (there : (n.raft.recordAck sender p resp).progress peer = some pr) : pr.nextIndex ≤ n.raft.log.lastIndex + 1 ∧
      (pr.matchIndex = 0 ∨ pr.matchIndex < s.reach peer n.raft.hard.currentTerm) := by
  have old := inv.nodes found
  have length := n.raft.log.lastIndexSucc
  by_cases same : peer = sender
  · subst same
    have is : Raft.ackProgress p resp = pr := by simpa [Raft.recordAck] using there
    subst is
    unfold Raft.ackProgress
    split
    · rename_i success
      have held : resp.lastLogIndex < s.reach peer resp.term := inv.net _ arrived success
      rw [truthful success] at held
      have inside := inv.sound.inside peer n.raft.hard.currentTerm
      rw [(inv.logs.nodes found).written leads] at inside
      exact ⟨by show resp.lastLogIndex + 1 ≤ _; omega,.inr held⟩
    · obtain ⟨_,matched⟩ := old.peers leads peer p known
      exact ⟨by show max (p.nextIndex - 1) 1 ≤ _; omega,matched⟩
  · have before : n.raft.progress peer = some pr := by simpa [Raft.recordAck,same] using there
    exact old.peers leads peer pr before

theorem advancedSettled (arrived : ⟨sender,id,.appendEntriesResp resp⟩ ∈ c.net)
    (truthful : resp.success = true → resp.term = n.raft.hard.currentTerm)
    (known : n.raft.progress sender = some p) (more : n.raft.hard.commitIndex < k)
    (inside : k ≤ n.raft.log.lastIndex) (stamp : n.raft.log.termAt k = n.raft.hard.currentTerm)
    (quorum : (n.raft.recordAck sender p resp).hasQuorumForIndex k = true) :
    Settled term voters s n.raft.hard.currentTerm k := by
  have old := inv.nodes found
  have node := inv.logs.fixed.nodes found
  have self := (inv.logs.fixed.ballots.nodes found).self
  have length := n.raft.log.lastIndexSucc
  have here := List.getElem?_eq_getElem (show k < n.raft.log.entries.length by omega)
  have member : n.raft.config.id ∈ voters := by
    rw [self]
    exact node.member
  obtain ⟨group,majority,all⟩ := quorumMajority (r := n.raft.recordAck sender p resp) node.list
    node.joint member quorum
  refine ⟨k,le_refl k,⟨_,?_,(termAtOf here).symm.trans stamp⟩,group,majority,?_⟩
  · rw [(inv.logs.nodes found).written leads]
    exact here
  · intro v mem
    rcases all v mem with same | matched
    · have mine : v = id := same.trans self
      have acked := old.acked leads
      rw [mine]
      omega
    · unfold Raft.matched at matched
      split at matched
      · rename_i pr there
        have reached := of_decide_eq_true matched
        rcases (ackPeers inv found leads arrived truthful known there).2 with _ | _
        · omega
        · omega
      · cases matched

include logs role

theorem simAck (arrived : ⟨sender,id,.appendEntriesResp resp⟩ ∈ c.net)
    (truthful : resp.success = true → resp.term = n.raft.hard.currentTerm)
    (term : n'.raft.hard.currentTerm = n.raft.hard.currentTerm) (log : n'.raft.log = n.raft.log)
    (known : n.raft.progress sender = some p) (progress : n'.raft.progress = (n.raft.recordAck sender p resp).progress)
    (commit : Advanced (n.raft.recordAck sender p resp) n'.raft.hard.commitIndex)
    (level : n'.raft.hard.lastApplied = max n.raft.hard.lastApplied n'.raft.hard.commitIndex)
    (sent : AllOrdinary n'.raft out) (applied : n'.applied = n.applied ++ cmds) (commands : cmds =
      commandsOf (between n.raft.log n.raft.hard.lastApplied n'.raft.hard.commitIndex)) :
    ∃ s', Moves voters s s' id n n' ∧ Sim voters (c.put id n' out) s' := by
  have old := inv.nodes found
  have written := (inv.logs.nodes found).written leads
  have grown : n.raft.hard.commitIndex ≤ n'.raft.hard.commitIndex := by
    rcases commit.cases with same | ⟨more,_⟩
    · exact le_of_eq same.symm
    · exact le_of_lt more
  have moves : Moves voters s s id n n' := by
    refine ⟨.refl,?_,fun _ _ => ⟨rfl,rfl⟩⟩
    rw [ledgerLed role,term,log,← written,update_eq_self]
  have node : SimNode voters s id n' := by
    refine ⟨old.term.trans term.symm,by rw [old.log,log],?_,?_,?_,?_,?_,?_⟩
    · intro candidate
      rw [role] at candidate
      cases candidate
    · intro _
      rw [log,term]
      exact old.acked leads
    · intro _ _ _ there
      rw [progress] at there
      rw [log,term]
      exact ackPeers inv found leads arrived truthful known there
    · rcases commit.cases with same | ⟨more,inside,stamp,quorum⟩
      · obtain ⟨t,before,old,same'⟩ := old.committed
        have commit' : n'.raft.hard.commitIndex = n.raft.hard.commitIndex := same
        rw [commit',log,term]
        exact ⟨t,before,old.later (stepsLater moves.steps),same'⟩
      · have settled := advancedSettled inv found leads arrived truthful known more inside stamp quorum
        refine ⟨n'.raft.hard.currentTerm,le_refl _,term ▸ settled,?_⟩
        rw [log,term,written]
    · rw [level,old.level]
      omega
    · rw [applied,commands,old.level,log,takeBetween n.raft.log grown,commandsOfAppend,old.applied]
  exact ⟨s,moves,moves.sim inv found logs node (fun m mem => moves.ordinary logs node (sent m mem))⟩

theorem simOwn (hard : n'.raft.hard = n.raft.hard)
    (log : n'.raft.log.entries = n.raft.log.entries ++ [⟨n.raft.hard.currentTerm,cmd⟩])
    (progress : n'.raft.progress = n.raft.progress) (sent : AllOrdinary n'.raft out) (none : n'.applied = n.applied) :
    ∃ s', Moves voters s s' id n n' ∧ Sim voters (c.put id n' out) s' := by
  have old := inv.nodes found
  have written := (inv.logs.nodes found).written leads
  have term : n'.raft.hard.currentTerm = n.raft.hard.currentTerm := congrArg _ hard
  have commit : n'.raft.hard.commitIndex = n.raft.hard.commitIndex := congrArg _ hard
  have opened : s.led n.raft.hard.currentTerm ≠ [] := by
    rw [written]
    exact n.raft.log.nonempty
  have ledger : (s.write n.raft.hard.currentTerm ⟨n.raft.hard.currentTerm,cmd⟩).led
      n.raft.hard.currentTerm = n'.raft.log.entries := by
    simp [State.write,update_self,written,log]
  have steps : Steps LogEntry.term voters s
      (followed (s.write n.raft.hard.currentTerm ⟨n.raft.hard.currentTerm,cmd⟩) id
        n.raft.hard.currentTerm n'.raft.log.entries) := by
    refine .trans (.single (.write opened rfl)) (followedSteps (le_of_eq old.term) ?_ ?_ ?_)
    · rw [ledger]
      exact n'.raft.log.nonempty
    · rw [ledger]
    · intro q _ theirs
      exact ledger ▸ theirs
  have moves : Moves voters s (followed (s.write n.raft.hard.currentTerm ⟨n.raft.hard.currentTerm,cmd⟩) id
        n.raft.hard.currentTerm n'.raft.log.entries) id n n' := by
    refine ⟨steps,?_,fun v => followedOthers⟩
    rw [ledgerLed role,term,log,← written]
    rfl
  have later := stepsLater steps
  have length := n'.raft.log.lastIndexSucc
  have before := n.raft.log.lastIndexSucc
  have longer : n'.raft.log.entries.length = n.raft.log.entries.length + 1 := by
    rw [log,length_append,length_singleton]
  obtain ⟨t,upTo,known,same⟩ := old.committed
  have reaches : n.raft.hard.commitIndex + 1 ≤ n.raft.log.entries.length := by
    have size := congrArg List.length same
    have := known.length
    rw [length_take,length_take] at size
    omega
  have still : n'.raft.log.entries.take (n.raft.hard.commitIndex+1) =
      n.raft.log.entries.take (n.raft.hard.commitIndex+1) := by
    rw [log,take_append_of_le_length reaches]
  have node : SimNode voters (followed (s.write n.raft.hard.currentTerm ⟨n.raft.hard.currentTerm,cmd⟩) id
        n.raft.hard.currentTerm n'.raft.log.entries) id n' := by
    refine ⟨(update_self ..).trans term.symm,update_self ..,?_,?_,?_,?_,?_,?_⟩
    · intro candidate
      rw [role] at candidate
      cases candidate
    · intro _
      rw [term]
      simp only [followed,State.ack,update_self]
      omega
    · intro _ peer pr there
      rw [progress] at there
      rw [term]
      obtain ⟨_,matched⟩ := old.peers leads peer pr there
      exact ⟨by omega,matched.imp_right (fun held => lt_of_lt_of_le held (later.reach _ _))⟩
    · rw [commit,term,still]
      refine ⟨t,upTo,known.later (stepsLater moves.steps),?_⟩
      rw [ledTake known later.led]
      exact same
    · rw [hard]
      exact old.level
    · rw [none,commit,still]
      exact old.applied
  exact ⟨_,moves,moves.sim inv found logs node (fun m mem => moves.ordinary logs node (sent m mem))⟩

end

theorem simCall (inv : Sim voters c s) (found : c.nodes id = some n) (fixed : Fixed voters (c.put id n' out))
    (received : ∀ sender m, inc = some (sender,m) → ⟨sender,id,m⟩ ∈ c.net)
    (truthful : ∀ sender m, inc = some (sender,m) → Truthful n.raft m)
    (room : Room n.raft inc) (config : n'.raft.config = n.raft.config)
    (clean : CleanCall n.raft inc n'.raft out cmds) (applied : n'.applied = n.applied ++ cmds) :
    ∃ s', Moves voters s s' id n n' ∧ Sim voters (c.put id n' out) s' := by
  have logs := (cleanGoes inv.logs found fixed received room config clean).logs inv.logs fixed found
  have nothing : cmds = [] → n'.applied = n.applied := by
    intro none
    rw [applied,none,append_nil]
  have fresh : n'.raft.soft.role = .leader → 0 < n'.raft.hard.currentTerm →
      ¬ Stands n.raft n'.raft.hard.currentTerm → s.led n'.raft.hard.currentTerm = [] :=
    freshTerm inv.logs fixed found
  cases clean with
  | idle stable term role _ progress sent none =>
    exact simStay inv found logs stable (le_of_eq term.symm) (.inr ⟨term,role,fun _ => progress⟩) (nothing none) sent
  | follow stable term role sent none =>
    exact simStay inv found logs stable term (.inl role) (nothing none) sent
  | grant _ _ cause stable up term upToDate standing sent none =>
    refine simGrant inv found logs (received _ _ cause) stable up term upToDate ?_ (nothing none) sent
    rcases standing with follower | ⟨current,role,_,progress⟩
    · exact .inl follower
    · exact .inr ⟨term.trans current.symm,role,fun _ => progress⟩
  | campaign alone was stable term _ role sent none =>
    have next := termNextBelow (room alone was)
    refine simCampaign inv found logs stable (nothing none) (by omega) term ?_ ?_ sent
    · intro leads
      refine fresh leads (by omega) ?_
      rintro (less | ⟨_,_⟩) <;> omega
    · exact role.imp_right (fun won => ⟨won.1,won.2.2⟩)
  | count _ _ _ was _ stable term _ role sent none =>
    rcases role with candidate | ⟨leads,_,progress⟩
    · refine simStay inv found logs stable (le_of_eq term.symm)
        (.inr ⟨term,candidate.trans was.symm,?_⟩) (nothing none) sent
      intro leads
      rw [was] at leads
      cases leads
    · have positive := (inv.logs.nodes found).positive (by rw [was]; simp)
      refine simCount inv found logs stable (nothing none) leads was term progress ?_ sent
      refine fresh leads (by omega) ?_
      rintro (_ | ⟨_,other⟩)
      · omega
      · exact other was
  | accept _ _ cause up term standing fits log commit sent =>
    have arrived := received _ _ cause
    obtain ⟨leaderId,other⟩ := inv.logs.apart _ arrived
    have self := (inv.logs.fixed.ballots.nodes found).self
    refine simAccept inv found logs arrived (truthful _ _ cause up fits) up term ?_ fits log commit applied sent
    refine standing.imp_right (fun kept => ⟨kept.1,kept.2.1,fun leads => ?_⟩)
    have mine := kept.2.2.2 leads
    rw [self,leaderId] at mine
    exact other mine
  | ack _ _ _ cause leads role current term log known progress commit level sent commands =>
    exact simAck inv found logs leads role (received _ _ cause)
      (fun success => truthful _ _ cause leads success current) term log known progress commit level
      sent applied commands
  | own _ _ leads role hard log progress sent none =>
    exact simOwn inv found logs leads role hard log progress sent (nothing none)

structure Follows (voters : List NodeId) (s : Ghost) (c' : Cluster MemStorage) (s' : Ghost) :
    Prop where
  steps : Steps LogEntry.term voters s s'
  sim : Sim voters c' s'
  led : ∀ {t}, s'.led t ≠ [] → s.led t ≠ [] ∨ ∃ id, leaderTerm c' id = some t

theorem simStep (inv : Sim voters c s) (ok : SafeStep c e)
    (step : c.step e = some c') : ∃ s', Follows voters s c' s' := by
  have fixed := fixedStep inv.logs.fixed ok.log.fixed step
  cases cleanStep inv.logs.fixed (fun found => (inv.logs.nodes found).peers) ok.log step with
  | @call n n' out cmds found received room config clean applied next =>
    subst next
    have truthful : ∀ sender m, incoming e = some (sender,m) → Truthful n.raft m := by
      intro _ m arrives
      have all := ok.truthful
      cases e with
      | deliver =>
        cases arrives
        exact all n found
      | _ => cases arrives
    obtain ⟨s',moves,sim⟩ := simCall inv found fixed received truthful room config clean applied
    refine ⟨s',moves.steps,sim,?_⟩
    intro t opened
    rw [moves.led] at opened
    unfold ledgerAfter at opened
    split at opened
    · rename_i leads
      by_cases same : t = n'.raft.hard.currentTerm
      · refine .inr ⟨actor e,?_⟩
        simp [leaderTerm,putHere,Option.bind_eq_bind,Option.bind_some,leads,same]
      · rw [update_of_ne same] at opened
        exact .inl opened
    · exact .inl opened
  | quiet next =>
    subst next
    exact ⟨s,.refl,inv,.inl⟩
  | request _ next =>
    have logs := inv.logs.quiet fixed (fun req is => by cases is) next
    subst next
    refine ⟨s,.refl,⟨logs,inv.sound,inv.nodes,?_⟩,.inl⟩
    intro env mem
    rcases mem_append.mp mem with old | new
    · exact inv.net env old
    · cases mem_singleton.mp new
      trivial

theorem simRun (inv : Sim voters c s)
    (ok : Execution.Admissible Cluster.step SafeStep c events) (done : c.run events = some c') :
    ∃ s', Steps term voters s s' ∧ Sim voters c' s' := by
  induction events generalizing c s with
  | nil =>
    cases Option.some.inj done
    exact ⟨s,.refl,inv⟩
  | cons _ _ ih =>
    obtain ⟨next,one,more⟩ := Execution.runCons done
    obtain ⟨_,first⟩ := simStep inv ok.1 one
    obtain ⟨s₂,later,last⟩ := ih first.sim (ok.2 next one) more
    exact ⟨s₂,Relation.ReflTransGen.trans first.steps later,last⟩

end

end NoeDB.RaftSimulation
