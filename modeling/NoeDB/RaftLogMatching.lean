import NoeDB.RaftReplication
import NoeDB.TermLedger

/-! Log matching. The ledger of a term is the log its leader has written; leaders are
unique per term, so it is well defined, and every log in the cluster is consistent
with the ledgers. -/
namespace NoeDB.RaftLogMatching
open RaftTypes RaftCore RaftRuntime RaftCluster RaftEffects RaftSteps List LogEntry Option RaftLog Nat Cluster
open RaftProgress RaftElection RaftReplication TermLedger Function

abbrev Ledger := Nat → List LogEntry

def Slice (led : Ledger) (req : AppendEntriesReq) : Prop :=
  req.entries ≠ [] → ∃ e, (led req.term)[req.prevLogIndex]? = some e ∧ e.term = req.prevLogTerm ∧
    req.entries <+: (led req.term).drop (req.prevLogIndex+1)

theorem Slice.grow (slice : Slice led req) (grows : Grows led led') : Slice led' req := by
  intro some
  obtain ⟨e,found,term,front⟩ := slice some
  obtain ⟨_,eq⟩ := grows req.term
  have inside : req.prevLogIndex < (led req.term).length := by
    by_contra h
    rw [List.getElem?_eq_none (by omega)] at found
    cases found
  refine ⟨e,?_,term,?_⟩
  · rw [← eq,List.getElem?_append_left inside]
    exact found
  · rw [← eq,drop_append_of_le_length (by omega)]
    exact front.trans (List.prefix_append _ _)

def Apart (env : Envelope) : Prop :=
  match env.msg with
  | .appendEntries req => req.leaderId = env.sender ∧ env.sender ≠ env.target
  | _ => True

structure LogNode (led : Ledger) (n : MemNode) : Prop where
  consistent : Consistent LogEntry.term led n.raft.log.entries
  written : n.raft.soft.role = .leader → led n.raft.hard.currentTerm = n.raft.log.entries
  positive : n.raft.soft.role ≠ .follower → 0 < n.raft.hard.currentTerm
  peers : Peers n.raft
  nexts : n.raft.soft.role = .leader → ∀ p pr, n.raft.progress p = some pr → 1 ≤ pr.nextIndex

def ledgerAfter (led : Ledger) (r : Raft) : Ledger :=
  if r.soft.role = .leader then update led r.hard.currentTerm r.log.entries else led

theorem ledgerSame (node : LogNode led n) : ledgerAfter led n.raft = led := by
  unfold ledgerAfter
  split
  · rename_i leads
    rw [← node.written leads,update_eq_self]
  · rfl

theorem ledgerLed (leads : r.soft.role = .leader) :
    ledgerAfter led r = update led r.hard.currentTerm r.log.entries := if_pos leads

def Stands (r : Raft) (term : Nat) : Prop :=
  term < r.hard.currentTerm ∨ (term = r.hard.currentTerm ∧ r.soft.role ≠ .candidate)

structure Logs (voters : List NodeId) [Bincode] (led : Ledger) (c : Cluster MemStorage) : Prop where
  fixed : Fixed voters c
  nodes : ∀ {id n}, c.nodes id = some n → LogNode led n
  coherent : Coherent LogEntry.term led
  positive : ∀ {t j e}, (led t)[j]? = some e → 0 < j → 0 < e.term
  owner : ∀ {t}, 0 < t → led t ≠ [] → ∃ o n, c.nodes o = some n ∧ Elected voters c.net o t ∧
    Stands n.raft t
  slices : ∀ env ∈ c.net, ∀ req, env.msg = .appendEntries req → Slice led req
  apart : ∀ env ∈ c.net, Apart env

theorem ackNext (p resp) : 1 ≤ (Raft.ackProgress p resp).nextIndex := by
  unfold Raft.ackProgress indexNext
  split
  · show 1 ≤ resp.lastLogIndex + 1
    omega
  · show 1 ≤ max (p.nextIndex - 1) 1
    omega

theorem appendReqSlice {r : Raft} (written : led r.hard.currentTerm = r.log.entries)
    {next} (positive : 1 ≤ next) : Slice led (r.appendReq next) := by
  intro some
  simp only [Raft.appendReq,sliceEntries,indexPrev] at some ⊢
  have inside : next < r.log.entries.length := by
    by_contra h
    rw [drop_of_length_le (by omega)] at some
    exact some (by simp)
  have before : next - 1 < r.log.entries.length := by omega
  refine ⟨r.log.entries[next-1],?_,?_,?_⟩
  · rw [written,List.getElem?_eq_getElem before]
  · exact (termAtOf (List.getElem?_eq_getElem before)).symm
  · rw [written,Nat.sub_add_cancel positive]
    exact List.take_prefix _ _

theorem splicePrefix {log : RaftLog} (coherent : Coherent term led)
    (positive : ∀ {t j e}, (led t)[j]? = some e → 0 < j → 0 < e.term)
    (own : Consistent term led log.entries) (some : req.entries ≠ [])
    (slice : Slice led req) (fits : log.termAt req.prevLogIndex = req.prevLogTerm) :
    log.entries.take (req.prevLogIndex+1) ++ req.entries =
      (led req.term).take (req.prevLogIndex+1+req.entries.length) := by
  obtain ⟨e,found,term,front⟩ := slice some
  have same : log.entries.take (req.prevLogIndex+1) = (led req.term).take (req.prevLogIndex+1) := by
    cases here : log.entries[req.prevLogIndex]? with
    | some =>
      refine matching own (coherent req.term) here found ?_
      rw [term,← fits]
      exact (termAtOf here).symm
    | none =>
      have missing : log.entries.length ≤ req.prevLogIndex := List.getElem?_eq_none_iff.mp here
      have zero := termAtBeyond missing
      have first : 0 < req.prevLogIndex := lt_of_lt_of_le log.lengthPos missing
      have stamped := positive found first
      omega
  have cut := List.prefix_iff_eq_take.mp front
  calc log.entries.take (req.prevLogIndex+1) ++ req.entries = (led req.term).take (req.prevLogIndex+1) ++
          ((led req.term).drop (req.prevLogIndex+1)).take req.entries.length := by rw [same,← cut]
    _ = (led req.term).take (req.prevLogIndex+1+req.entries.length) := take_add.symm

section
variable [Bincode] {voters : List NodeId} {led : Ledger} {c : Cluster MemStorage}

theorem freshTerm (inv : Logs voters led c) {id}
    (fixed : Fixed voters (c.put id n' out)) (found : c.nodes id = some n)
    (leads : n'.raft.soft.role = .leader) (positive : 0 < n'.raft.hard.currentTerm)
    (fell : ¬ Stands n.raft n'.raft.hard.currentTerm) : led n'.raft.hard.currentTerm = [] := by
  by_contra owned
  obtain ⟨o,m,there,elected,stands⟩ := inv.owner positive owned
  have mine := (fixed.nodes (putHere c id n' out)).leads leads
  have same : o = id := electedUnique fixed.ballots elected.mono mine (inv.fixed.nodes there).member
    (inv.fixed.nodes found).member
  subst same
  cases some.inj (found.symm.trans there)
  exact fell stands

structure Goes (led led' : Ledger) (id : NodeId) (n n' : MemNode) (out : Outbound) : Prop where
  grows : Grows led led'
  coherent : Coherent LogEntry.term led'
  positive : ∀ {t j e}, (led' t)[j]? = some e → 0 < j → 0 < e.term
  changed : ∀ {t}, led' t ≠ led t → t = n'.raft.hard.currentTerm ∧ n'.raft.soft.role = .leader
  node : LogNode led' n'
  stands : ∀ {t}, Stands n.raft t → Stands n'.raft t
  slices : ∀ m ∈ out, ∀ req, m.2 = .appendEntries req → Slice led' req
  apart : ∀ m ∈ out, Apart ⟨id,m.1,m.2⟩

theorem Goes.logs {id} (inv : Logs voters led c)
    (fixed : Fixed voters (c.put id n' out)) (found : c.nodes id = some n)
    (goes : Goes led led' id n n' out) : Logs voters led' (c.put id n' out) where
  fixed := fixed
  coherent := goes.coherent
  positive := goes.positive
  nodes := by
    intro who m there
    by_cases same : who = id
    · subst same
      have this : n' = m := by simpa [put] using there
      exact this ▸ goes.node
    · have before := (putElse c n' out same).symm.trans there
      have old := inv.nodes before
      refine ⟨old.consistent.grow goes.grows,?_,old.positive,old.peers,old.nexts⟩
      intro leads
      by_contra differs
      rw [← old.written leads] at differs
      obtain ⟨term,role⟩ := goes.changed differs
      have other := fixed.nodes there
      have mine := fixed.nodes (putHere c id n' out)
      have elected := other.leads leads
      rw [term] at elected
      exact same (electedUnique fixed.ballots elected (mine.leads role) other.member mine.member)
  owner := by
    intro t positive owned
    by_cases old : led t ≠ []
    · obtain ⟨o,m,there,elected,stands⟩ := inv.owner positive old
      by_cases same : o = id
      · subst same
        cases some.inj (found.symm.trans there)
        exact ⟨o,n',putHere c o n' out,elected.mono,goes.stands stands⟩
      · exact ⟨o,m,(putElse c n' out same).trans there,elected.mono,stands⟩
    · have empty : led t = [] := by
        by_contra h
        exact old h
      obtain ⟨term,role⟩ := goes.changed (t := t) (by rw [empty]; exact owned)
      have there := putHere c id n' out
      refine ⟨id,n',there,?_,.inr ⟨term,by rw [role]; simp⟩⟩
      rw [term]
      exact (fixed.nodes there).leads role
  slices := by
    intro env mem req is
    rcases mem_append.mp mem with old | new
    · exact (inv.slices env old req is).grow goes.grows
    · obtain ⟨m,sent,eq⟩ := mem_map.mp new
      subst eq
      exact goes.slices m sent req is
  apart := by
    intro env mem
    rcases mem_append.mp mem with old | new
    · exact inv.apart env old
    · obtain ⟨m,sent,eq⟩ := mem_map.mp new
      subst eq
      exact goes.apart m sent

end

theorem ordinarySlice {n : MemNode} (node : LogNode led n)
    (ordinary : Ordinary n.raft m) (req) (is : m.2 = .appendEntries req) : Slice led req := by
  simp only [Ordinary,is] at ordinary
  obtain ⟨leads,_,eq⟩ := ordinary
  rw [eq]
  refine appendReqSlice (node.written leads) ?_
  unfold Raft.nextFor
  split
  · rename_i p known
    exact node.nexts leads _ p known
  · exact le_refl 1

theorem ordinaryApart {n : MemNode} {id} (self : n.raft.config.id = id)
    (ordinary : Ordinary n.raft m) : Apart ⟨id,m.1,m.2⟩ := by
  obtain ⟨_,msg⟩ := m
  cases msg with
  | appendEntries =>
    obtain ⟨_,other,eq⟩ := ordinary
    rw [self] at other
    refine ⟨?_,fun same => other same.symm⟩
    rw [eq]
    exact self
  | _ => trivial

def Empty (m : NodeId × RpcMessage) : Prop := ∀ req, m.2 ≠ .appendEntries req

theorem sentSlices (node : LogNode led n) {out : Outbound} (sent : ∀ m ∈ out, Ordinary n.raft m ∨ Empty m) :
    ∀ m ∈ out, ∀ req, m.2 = .appendEntries req → Slice led req := by
  intro m mem req is
  rcases sent m mem with ordinary | empty
  · exact ordinarySlice node ordinary req is
  · exact absurd is (empty req)

theorem sentApart {n : MemNode} {id} (self : n.raft.config.id = id) {out : Outbound}
    (sent : ∀ m ∈ out, Ordinary n.raft m ∨ Empty m) : ∀ m ∈ out, Apart ⟨id,m.1,m.2⟩ := by
  intro m mem
  rcases sent m mem with ordinary | empty
  · exact ordinaryApart self ordinary
  · unfold Apart
    split
    · rename_i req is
      exact absurd is (empty req)
    · trivial

section
variable [Bincode] {voters : List NodeId} {led : Ledger} {c : Cluster MemStorage}

theorem Goes.keep (inv : Logs voters led c) {id} {n n' : MemNode} {out : Outbound}
    (self : n'.raft.config.id = id) (node : LogNode led n') (stands : ∀ {t}, Stands n.raft t → Stands n'.raft t)
    (sent : ∀ m ∈ out, Ordinary n'.raft m ∨ Empty m) : Goes led (ledgerAfter led n'.raft) id n n' out := by
  rw [ledgerSame node]
  exact ⟨fun _ => List.prefix_rfl,inv.coherent,inv.positive,fun differs => absurd rfl differs,node,
    stands,sentSlices node sent,sentApart self sent⟩

theorem Goes.start (inv : Logs voters led c) {id} {n n' : MemNode} {out : Outbound}
    (found : c.nodes id = some n) (fixed : Fixed voters (c.put id n' out))
    (self : n'.raft.config.id = id) (stable : Stable n.raft n'.raft)
    (leads : n'.raft.soft.role = .leader) (positive : 0 < n'.raft.hard.currentTerm)
    (progress : n'.raft.progress = leaderProgress n'.raft) (fell : ¬ Stands n.raft n'.raft.hard.currentTerm)
    (stands : ∀ {t}, Stands n.raft t → Stands n'.raft t) (sent : ∀ m ∈ out, Ordinary n'.raft m ∨ Empty m) :
    Goes led (ledgerAfter led n'.raft) id n n' out := by
  rw [ledgerLed leads]
  have fresh := freshTerm inv fixed found leads positive fell
  have own : Consistent term led n'.raft.log.entries := by
    rw [stable.log]
    exact (inv.nodes found).consistent
  have grows : Grows led (update led n'.raft.hard.currentTerm n'.raft.log.entries) :=
    growsUpdate (fresh ▸ List.nil_prefix)
  have node : LogNode (update led n'.raft.hard.currentTerm n'.raft.log.entries) n' := by
    refine ⟨own.grow grows,fun _ => update_self ..,fun _ => positive,?_,?_⟩
    · intro _ p pr known
      rw [progress,leaderProgress,freshProgressAt] at known
      split at known
      · rename_i peer
        exact peer.2
      · cases known
    · intro _ p _ known
      rw [progress,leaderProgress,freshProgressAt] at known
      split at known
      · cases known
        exact succ_le_of_lt (succ_pos _)
      · cases known
  refine ⟨grows,coherentStart inv.coherent fresh own,?_,?_,node,stands,sentSlices node sent, sentApart self sent⟩
  · intro t j e here after
    by_cases same : t = n'.raft.hard.currentTerm
    · subst same
      rw [update_self] at here
      exact inv.positive (own.atLedger here) after
    · rw [update_of_ne same] at here
      exact inv.positive here after
  · intro t differs
    by_cases same : t = n'.raft.hard.currentTerm
    · exact ⟨same,leads⟩
    · rw [update_of_ne same] at differs
      exact absurd rfl differs

theorem Goes.write (inv : Logs voters led c) {id} {n n' : MemNode} {out : Outbound} {cmd : Command}
    (found : c.nodes id = some n) (self : n'.raft.config.id = n.raft.config.id) (selfId : n.raft.config.id = id)
    (leads : n.raft.soft.role = .leader) (role : n'.raft.soft.role = .leader)
    (term : n'.raft.hard.currentTerm = n.raft.hard.currentTerm)
    (log : n'.raft.log.entries = n.raft.log.entries ++ [⟨n.raft.hard.currentTerm,cmd⟩])
    (progress : n'.raft.progress = n.raft.progress) (sent : ∀ m ∈ out, Ordinary n'.raft m ∨ Empty m) :
    Goes led (ledgerAfter led n'.raft) id n n' out := by
  have old := inv.nodes found
  have written := old.written leads
  have positive := old.positive (by rw [leads]; simp)
  have log' : n'.raft.log.entries = led n.raft.hard.currentTerm ++ [⟨n.raft.hard.currentTerm,cmd⟩] := by
    rw [log,written]
  rw [ledgerLed role,term,log']
  have coherent : Coherent LogEntry.term (update led n.raft.hard.currentTerm
      (led n.raft.hard.currentTerm ++ [⟨n.raft.hard.currentTerm,cmd⟩])) :=
    coherentWrite inv.coherent rfl
  have ledger : update led n.raft.hard.currentTerm
      (led n.raft.hard.currentTerm ++ [⟨n.raft.hard.currentTerm,cmd⟩]) n.raft.hard.currentTerm =
      n'.raft.log.entries := by
    rw [update_self,log']
  have node : LogNode (update led n.raft.hard.currentTerm
      (led n.raft.hard.currentTerm ++ [⟨n.raft.hard.currentTerm,cmd⟩])) n' := by
    refine ⟨?_,fun _ => term ▸ ledger,fun _ => term ▸ positive,?_,?_⟩
    · rw [← ledger]
      exact coherent n.raft.hard.currentTerm
    · intro _ p pr known
      rw [progress] at known
      rw [self]
      exact old.peers leads p pr known
    · intro _ p pr known
      rw [progress] at known
      exact old.nexts leads p pr known
  refine ⟨growsUpdate (List.prefix_append _ _),coherent,?_,?_,node,?_,sentSlices node sent,
    sentApart (self.trans selfId) sent⟩
  · intro t j e here after
    by_cases same : t = n.raft.hard.currentTerm
    · subst same
      rw [update_self] at here
      rcases lt_or_ge j (led n.raft.hard.currentTerm).length with inside | beyond
      · rw [List.getElem?_append_left inside] at here
        exact inv.positive here after
      · rw [List.getElem?_append_right beyond] at here
        have is := mem_singleton.mp (mem_of_getElem? here)
        rw [is]
        exact positive
    · rw [update_of_ne same] at here
      exact inv.positive here after
  · intro t differs
    by_cases same : t = n.raft.hard.currentTerm
    · exact ⟨same.trans term.symm,role⟩
    · rw [update_of_ne same] at differs
      exact absurd rfl differs
  · intro t stands
    unfold Stands at stands ⊢
    rw [term,role]
    rcases stands with less | ⟨same,_⟩
    · exact .inl less
    · exact .inr ⟨same,by simp⟩

end

section
variable {led : Ledger}

theorem standsUp (term : r.hard.currentTerm ≤ r'.hard.currentTerm)
    (role : r'.soft.role = .follower ∨ (r'.hard.currentTerm = r.hard.currentTerm ∧
      r'.soft.role = r.soft.role)) (stands : Stands r t) : Stands r' t := by
  rcases stands with _ | ⟨_,notCandidate⟩
  · exact .inl (by omega)
  · rcases lt_or_ge r.hard.currentTerm r'.hard.currentTerm with _ | _
    · exact .inl (by omega)
    · refine .inr ⟨by omega,?_⟩
      rcases role with follower | ⟨_,kept⟩
      · rw [follower]
        simp
      · rw [kept]
        exact notCandidate

theorem unledNode (own : Consistent term led n'.raft.log.entries) (unled : n'.raft.soft.role ≠ .leader)
    (positive : n'.raft.soft.role ≠ .follower → 0 < n'.raft.hard.currentTerm) : LogNode led n' :=
  ⟨own,fun leads => absurd leads unled,positive,fun leads => absurd leads unled,fun leads => absurd leads unled⟩

theorem followerNode (own : Consistent term led n'.raft.log.entries)
    (role : n'.raft.soft.role = .follower) : LogNode led n' :=
  unledNode own (by simp [role]) fun not => absurd role not

theorem candidateNode (own : Consistent term led n'.raft.log.entries)
    (role : n'.raft.soft.role = .candidate) (positive : 0 < n'.raft.hard.currentTerm) : LogNode led n' :=
  unledNode own (by simp [role]) fun _ => positive

theorem sameNode (old : LogNode led n) (config : n'.raft.config = n.raft.config)
    (term : n'.raft.hard.currentTerm = n.raft.hard.currentTerm)
    (role : n'.raft.soft.role = n.raft.soft.role) (log : n'.raft.log = n.raft.log)
    (progress : n'.raft.progress = n.raft.progress) : LogNode led n' := by
  refine ⟨?_,?_,?_,?_,?_⟩
  · rw [log]
    exact old.consistent
  · rw [role,term,log]
    exact old.written
  · rw [role,term]
    exact old.positive
  · unfold Peers
    rw [role,progress,config]
    exact old.peers
  · rw [role,progress]
    exact old.nexts

theorem ackNode (old : LogNode led n) (config : n'.raft.config = n.raft.config)
    (leads : n.raft.soft.role = .leader) (term : n'.raft.hard.currentTerm = n.raft.hard.currentTerm)
    (log : n'.raft.log = n.raft.log) (known : n.raft.progress sender = some p)
    (progress : n'.raft.progress = update n.raft.progress sender (some (Raft.ackProgress p resp))) :
    LogNode led n' := by
  refine ⟨?_,?_,?_,?_,?_⟩
  · rw [log]
    exact old.consistent
  · intro _
    rw [term,log]
    exact old.written leads
  · intro _
    rw [term]
    exact old.positive (by rw [leads]; simp)
  · intro _ q pr here
    rw [progress] at here
    rw [config]
    by_cases same : q = sender
    · subst same
      exact old.peers leads q p known
    · rw [update_of_ne same] at here
      exact old.peers leads q pr here
  · intro _ q pr here
    rw [progress] at here
    by_cases same : q = sender
    · subst same
      rw [update_self] at here
      cases here
      exact ackNext p resp
    · rw [update_of_ne same] at here
      exact old.nexts leads q pr here

theorem answerEmpty (sent : out = [(peer,answer)])
    (apart : ∀ req, answer ≠ .appendEntries req) : ∀ m ∈ out, Ordinary r m ∨ Empty m := by
  intro m mem
  rw [sent] at mem
  cases mem_singleton.mp mem
  exact .inr apart

end

section
variable [Bincode] {voters : List NodeId} {led : Ledger} {c : Cluster MemStorage}

theorem electionGoes (inv : Logs voters led c) {id}
    (found : c.nodes id = some n) (fixed : Fixed voters (c.put id n' out)) (self : n'.raft.config.id = id)
    (config : n'.raft.config = n.raft.config) (stable : Stable n.raft n'.raft) (positive : 0 < n'.raft.hard.currentTerm)
    (role : n'.raft.soft.role = .candidate ∨ (n'.raft.soft.role = .leader ∧ n'.raft.progress = leaderProgress n.raft))
    (fallen : ¬Stands n.raft n'.raft.hard.currentTerm) (stands : ∀ {t}, Stands n.raft t → Stands n'.raft t)
    (sent : ∀ m ∈ out, Ordinary n'.raft m ∨ Empty m) : Goes led (ledgerAfter led n'.raft) id n n' out := by
  rcases role with role | ⟨role,progress⟩
  · exact .keep inv self (candidateNode (stable.log ▸ (inv.nodes found).consistent) role positive) stands sent
  · refine Goes.start inv found fixed self stable role positive ?_ fallen stands sent
    rw [progress,leaderProgress,leaderProgress,config,stable.log]

theorem cleanGoes (inv : Logs voters led c) {id}
    (found : c.nodes id = some n) (fixed : Fixed voters (c.put id n' out))
    (received : ∀ s m, inc = some (s,m) → ⟨s,id,m⟩ ∈ c.net) (room : Room n.raft inc)
    (config : n'.raft.config = n.raft.config) (clean : CleanCall n.raft inc n'.raft out cmds) :
    Goes led (ledgerAfter led n'.raft) id n n' out := by
  have old := inv.nodes found
  have selfId := (inv.fixed.ballots.nodes found).self
  have self : n'.raft.config.id = id := by rw [config,selfId]
  cases clean with
  | idle stable term role _ progress sent =>
    exact .keep inv self (sameNode old config term role stable.log progress)
      (standsUp (by omega) (.inr ⟨term,role⟩)) (fun m mem => .inl (sent m mem))
  | follow stable term role sent =>
    exact .keep inv self (followerNode (stable.log ▸ old.consistent) role)
      (standsUp term (.inl role)) (fun m mem => .inl (sent m mem))
  | grant _ _ _ stable _ term _ standing sent =>
    have empty : ∀ m ∈ out, Ordinary n'.raft m ∨ Empty m := answerEmpty sent fun _ is => nomatch is
    rcases standing with role | ⟨current,role,votes,progress⟩
    · exact .keep inv self (followerNode (stable.log ▸ old.consistent) role) (standsUp (by omega) (.inl role)) empty
    · have same : n'.raft.hard.currentTerm = n.raft.hard.currentTerm := term.trans current.symm
      exact .keep inv self (sameNode old config same role stable.log progress)
        (standsUp (by omega) (.inr ⟨same,role⟩)) empty
  | campaign alone was stable _ _ role sent =>
    have next := termNextBelow (room alone was)
    have stands : ∀ {t}, Stands n.raft t → Stands n'.raft t := by
      intro t stands
      rcases stands with less | ⟨same,_⟩
      · exact .inl (by omega)
      · exact .inl (by omega)
    have sent' : ∀ m ∈ out, Ordinary n'.raft m ∨ Empty m := by
      intro m mem
      rcases sent m mem with asks | ordinary
      · exact .inr (fun req is => by rw [asks] at is; cases is)
      · exact .inl ordinary
    refine electionGoes inv found fixed self config stable (by omega) (role.imp_right fun won => ⟨won.1,won.2.2⟩) ?_
      stands sent'
    rintro (less | ⟨same,_⟩) <;> omega
  | count _ _ _ was _ stable term _ role sent =>
    have positive : 0 < n'.raft.hard.currentTerm := by
      rw [term]
      exact old.positive (by rw [was]; simp)
    have stands : ∀ {t}, Stands n.raft t → Stands n'.raft t := by
      intro t stands
      rcases stands with less | ⟨same,not⟩
      · exact .inl (by omega)
      · exact absurd was not
    refine electionGoes inv found fixed self config stable positive (role.imp_right fun won => ⟨won.1,won.2.2⟩) ?_
      stands (fun m mem => .inl (sent m mem))
    rintro (_ | ⟨_,not⟩)
    · omega
    · exact not was
  | accept _ req cause _ term standing fits log _ sent =>
    have arrived := received _ _ cause
    obtain ⟨leaderId,other⟩ := inv.apart _ arrived
    have own : Consistent LogEntry.term led n'.raft.log.entries := by
      rw [log]
      split
      · exact old.consistent
      · rename_i some
        rw [splicePrefix inv.coherent inv.positive old.consistent some (inv.slices _ arrived req rfl) fits]
        exact (inv.coherent req.term).take _
    have empty : ∀ m ∈ out, Ordinary n'.raft m ∨ Empty m := answerEmpty sent fun _ is => nomatch is
    rcases standing with role | ⟨current,role,_,mine⟩
    · exact .keep inv self (followerNode own role) (standsUp (by omega) (.inl role)) empty
    · have same : n'.raft.hard.currentTerm = n.raft.hard.currentTerm := term.trans current.symm
      have notLeader : n.raft.soft.role ≠ .leader := by
        intro leads
        have mine' := mine leads
        rw [selfId,leaderId] at mine'
        exact other mine'
      have stands : ∀ {t}, Stands n.raft t → Stands n'.raft t := standsUp (by omega) (.inr ⟨same,role⟩)
      cases was : n.raft.soft.role with
      | follower =>
        exact .keep inv self (followerNode own (role.trans was)) stands empty
      | candidate =>
        refine .keep inv self (candidateNode own (role.trans was) ?_) stands empty
        rw [same]
        exact old.positive (by rw [was]; simp)
      | leader => exact absurd was notLeader
  | ack _ _ _ _ leads role _ term log known progress _ _ sent =>
    exact .keep inv self (ackNode old config leads term log known progress)
      (standsUp (by omega) (.inr ⟨term,role.trans leads.symm⟩)) (fun m mem => .inl (sent m mem))
  | own _ _ leads role hard log progress sent =>
    exact Goes.write inv found (congrArg RaftConfig.id config) selfId leads role
      (congrArg HardState.currentTerm hard) log progress (fun m mem => .inl (sent m mem))

theorem Logs.quiet (inv : Logs voters led c) (fixed : Fixed voters c') (silent : Empty (env.target,env.msg))
    (next : c' = {c with net := c.net ++ [env]}) : Logs voters led c' := by
  subst next
  refine ⟨fixed,inv.nodes,inv.coherent,inv.positive,?_,?_,?_⟩
  · intro t positive owned
    obtain ⟨o,n,there,elected,stands⟩ := inv.owner positive owned
    exact ⟨o,n,there,elected.mono,stands⟩
  · intro other mem req is
    rcases mem_append.mp mem with old | new
    · exact inv.slices other old req is
    · cases mem_singleton.mp new
      exact absurd is (silent req)
  · intro other mem
    rcases mem_append.mp mem with old | new
    · exact inv.apart other old
    · cases mem_singleton.mp new
      unfold Apart
      split
      · rename_i req is
        exact absurd is (silent req)
      · trivial

theorem logsStep (inv : Logs voters led c) (ok : LogStep c e)
    (step : c.step e = some c') : ∃ led', Grows led led' ∧ Logs voters led' c' := by
  have fixed := fixedStep inv.fixed ok.fixed step
  cases cleanStep inv.fixed (fun found => (inv.nodes found).peers) ok step with
  | call found received room config clean _ next =>
    subst next
    have goes := cleanGoes inv found fixed received room config clean
    exact ⟨_,goes.grows,goes.logs inv fixed found⟩
  | quiet next => exact ⟨led,fun _ => List.prefix_rfl,next ▸ inv⟩
  | request _ next =>
    exact ⟨led,fun _ => List.prefix_rfl,inv.quiet fixed (fun req is => by cases is) next⟩

end

def firstLedger : Ledger := update (fun _ => []) 0 RaftLog.new.entries

theorem firstConsistent : Consistent term firstLedger new.entries := by
  intro j e found
  cases mem_singleton.mp (mem_of_getElem? found)
  rfl

theorem memOpens [Bincode] : Opens MemStorage.new := by
  refine ⟨rfl,fun e there => ?_⟩
  have sentinel : e ∈ new.entries := there
  cases mem_singleton.mp sentinel
  exact decodeEmpty

theorem logsBoot [Bincode] (peers : ∀ id ∈ ids, id ∈ voters) :
    Logs voters firstLedger (boot ids voters tuning (fun _ => MemStorage.new) draw) := by
  have later : ∀ {t}, 0 < t → firstLedger t = [] := by
    intro t positive
    exact update_of_ne (by omega) _ _
  refine ⟨fixedBoot peers (fun _ => memOpens),?_,?_,?_,?_,?_,?_⟩
  · intro _ n found
    simp only [boot] at found
    split at found
    · cases some.inj found
      exact followerNode firstConsistent rfl
    · cases found
  · intro t
    rcases Nat.eq_zero_or_pos t with zero | positive
    · subst zero
      exact firstConsistent
    · rw [later positive]
      intro j e found
      cases found
  · intro t j e found _
    rcases Nat.eq_zero_or_pos t with zero | positive
    · subst zero
      rw [firstLedger,update_self, List.getElem?_eq_none (by show 1 ≤ j; omega)] at found
      cases found
    · rw [later positive] at found
      cases found
  · intro t positive owned
    exact absurd (later positive) owned
  · intro env mem
    cases mem
  · intro _ mem
    cases mem

theorem logsRun [Bincode] (inv : ∃ led, Logs voters led c) (ok : Execution.Admissible step LogStep c events)
    (done : c.run events = some c') : ∃ led, Logs voters led c' := by
  have preserved : ∀ (c : Cluster MemStorage) e next, (∃ led, Logs voters led c) → LogStep c e →
      c.step e = some next → ∃ led, Logs voters led next := by
    rintro c e _ ⟨_,inv⟩ ok step
    obtain ⟨led',_,after⟩ := logsStep inv ok step
    exact ⟨led',after⟩
  exact Execution.runInvariant preserved inv ok done

def LogsMatch (a b : RaftLog) : Prop :=
  ∀ i, ∀ x ∈ a.get i, ∀ y ∈ b.get i, x.term = y.term → ∀ j ≤ i, a.get j = b.get j

def AllMatch (c : Cluster MemStorage) : Prop :=
  ∀ a b, ∀ n ∈ c.nodes a, ∀ m ∈ c.nodes b, LogsMatch n.raft.log m.raft.log

theorem logMatching [Bincode] {ids voters : List NodeId} {tuning : NodeId → Tuning}
    {draw : NodeId → Nat} (peers : ∀ id ∈ ids, id ∈ voters) {events : List Event} {c : Cluster MemStorage}
    (ok : Execution.Admissible Cluster.step LogStep
      (Cluster.boot ids voters tuning (fun _ => MemStorage.new) draw) events)
    (ran : (Cluster.boot ids voters tuning (fun _ => MemStorage.new) draw).run events = some c) : AllMatch c := by
  obtain ⟨_,inv⟩ := logsRun ⟨_,logsBoot peers⟩ ok ran
  intro a b n foundA m foundB i x atA y atB term j le
  have same := matching (inv.nodes foundA).consistent (inv.nodes foundB).consistent atA atB term
  have here := congrArg (fun l : List LogEntry => l[j]?) same
  simp only [List.getElem?_take,if_pos (lt_succ_of_le le)] at here
  exact here

theorem logMatchingCommitTwo : ∃ c, threePeers.run commitTwo = some c ∧ AllMatch c := by
  obtain ⟨c,ran,-⟩ : ∃ c ∈ threePeers.run commitTwo, True := by decide +kernel
  exact ⟨c,ran,logMatching (by decide) (by decide +kernel) ran⟩

/- The leader replicates its first proposal to the second peer only and takes 64 more.
The answer of the third peer to the election's empty request then makes it save a
snapshot at index 0 and clear its log, and the next proposal takes index 1 again. -/
def forgetfulLeader : List Event := elect ++
  [.propose 1 [97],.deliver ⟨1,2,.appendEntries ⟨1,1,0,0,[⟨1,[97]⟩],0⟩⟩ 0] ++
  List.replicate 64 (.propose 1 [98]) ++
  [.deliver ⟨1,3,.appendEntries ⟨1,1,0,0,[],0⟩⟩ 0,.deliver ⟨3,1,.appendEntriesResp ⟨1,true,0⟩⟩ 0,
    .propose 1 [99]]

def entryAt (c : Cluster MemStorage) (id : NodeId) (index : Nat) : Option LogEntry := do
  let n ← c.nodes id
  n.raft.log.get index

theorem forgetfulLeaderDiverges : ∃ c, threePeers.run forgetfulLeader = some c ∧
    entryAt c 1 1 = some ⟨1,[99]⟩ ∧ entryAt c 2 1 = some ⟨1,[97]⟩ ∧ ¬ AllMatch c := by
  obtain ⟨c,ran,first,second⟩ : ∃ c ∈ threePeers.run forgetfulLeader,
      entryAt c 1 1 = some ⟨1,[99]⟩ ∧ entryAt c 2 1 = some ⟨1,[97]⟩ := by decide +kernel
  refine ⟨c,ran,first,second,?_⟩
  intro all
  obtain ⟨n,foundA,atA⟩ := bind_eq_some_iff.mp first
  obtain ⟨m,foundB,atB⟩ := bind_eq_some_iff.mp second
  have same := all 1 2 n foundA m foundB 1 _ atA _ atB rfl 1 (le_refl 1)
  rw [atA,atB] at same
  cases same

end NoeDB.RaftLogMatching
