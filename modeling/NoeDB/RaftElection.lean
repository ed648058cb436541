import NoeDB.Majority
import NoeDB.RaftSteps

/-! Elections. A vote is a message: a granted answer, or the request by which a
candidate votes for itself. Every vote on the network is backed by the durable
state of its voter, so no restart takes one back, and a voter has one vote per
term. The first part holds for any voter lists; with one fixed list it follows
that a term has at most one leader. -/
namespace NoeDB.RaftElection
open RaftTypes RaftCore RaftRuntime RaftCluster RaftEffects RaftDurability RaftPlain RaftSteps List Cluster LawfulRaftStorage Option

abbrev Net := List Envelope

def Granted (net : Net) (voter candidate : NodeId) (term : Nat) : Prop :=
  ⟨voter,candidate,.requestVoteResp ⟨term,true⟩⟩ ∈ net

def Asked (net : Net) (candidate peer : NodeId) (term : Nat) : Prop :=
  ∃ req : RequestVoteReq, req.term = term ∧ ⟨candidate,peer,.requestVote req⟩ ∈ net

def Voted (net : Net) (voter candidate : NodeId) (term : Nat) : Prop :=
  Granted net voter candidate term ∨ (voter = candidate ∧ ∃ peer, Asked net candidate peer term)

def Backs (hs : HardState) (term : Nat) (candidate : NodeId) : Prop :=
  term < hs.currentTerm ∨ (hs.currentTerm = term ∧ hs.votedFor = some candidate)

theorem Backs.mono (backs : Backs a term candidate) (behind : Behind a b) : Backs b term candidate := by
  rcases behind with less | ⟨same,vote⟩
  · rcases backs with past | ⟨here,_⟩
    · exact .inl (past.trans less)
    · exact .inl (here ▸ less)
  · rcases backs with past | ⟨here,for'⟩
    · exact .inl (same ▸ past)
    · refine .inr ⟨same ▸ here,?_⟩
      rcases vote with none | eq
      · rw [none] at for'
        cases for'
      · exact eq ▸ for'

theorem Granted.mono {net} (granted : Granted net v x t) : Granted (net ++ more) v x t := mem_append_left _ granted

theorem Asked.mono {net} (asked : Asked net x p t) : Asked (net ++ more) x p t := by
  obtain ⟨req,term,mem⟩ := asked
  exact ⟨req,term,mem_append_left _ mem⟩

section
variable {S : Type} [RaftStorage S] [LawfulRaftStorage S]

structure NodeBallots (net : Net) (id : NodeId) (n : RaftNode S) : Prop where
  self : n.raft.config.id = id
  trail : Trail (durable n.storage) n.storage n.raft.hard
  votes : n.raft.soft.role = .candidate →
    ∀ v ∈ n.raft.votes, v = id ∨ Granted net v id n.raft.hard.currentTerm

structure Ballots (c : Cluster S) : Prop where
  nodes : ∀ {id n}, c.nodes id = some n → NodeBallots c.net id n
  backed : ∀ {v x t}, Voted c.net v x t → ∃ n, c.nodes v = some n ∧ Backs (durable n.storage) t x
  unique : ∀ {v x y t}, Voted c.net v x t → Voted c.net v y t → x = y
  honest : ∀ {s p req}, ⟨s,p,.requestVote req⟩ ∈ c.net → req.candidateId = s ∧ s ≠ p
  answers : ∀ {v x t}, Granted c.net v x t → Asked c.net x v t

def Room (r : Raft) (incoming : Option (NodeId × RpcMessage)) : Prop :=
  incoming = none → r.soft.role ≠ .leader → r.hard.currentTerm < u64Max

theorem effectBehind {incoming}
    (effect : VoteEffect r r' incoming out saved) (room : Room r incoming) : Behind r.hard r'.hard := by
  cases effect with
  | keep term vote role votes quiet
  | count _ _ _ _ _ term vote => exact .inr ⟨term.symm,.inr vote.symm⟩
  | follow _ vote =>
    by_cases less : r.hard.currentTerm < r'.hard.currentTerm
    · exact .inl less
    · rw [if_neg less] at vote
      exact .inr ⟨by omega,.inr vote.symm⟩
  | grant _ req _ _ term free vote =>
    rcases Nat.lt_or_ge r.hard.currentTerm req.term with less | _
    · exact .inl (by omega)
    · refine .inr ⟨by omega,?_⟩
      rcases free with _ | none | same
      · omega
      · exact .inl none
      · exact .inr (same.trans vote.symm)
  | campaign alone was =>
    have next := termNextBelow (room alone was)
    exact .inl (by omega)

theorem effectLoud {incoming} (effect : VoteEffect r r' incoming out saved) (mem : m ∈ out) (loud : isVote m.2 = true) : saved ∧
    ((∃ req, incoming = some (m.1,.requestVote req) ∧ m.2 = .requestVoteResp ⟨req.term,true⟩ ∧
        r'.hard.currentTerm = req.term ∧ r'.hard.votedFor = some req.candidateId) ∨
      (m.2 = .requestVote (campaignReq r) ∧ m.1 ≠ r.config.id ∧
        r'.hard.currentTerm = (campaignReq r).term ∧ r'.hard.votedFor = some r.config.id)) := by
  cases effect with
  | keep term vote role votes quiet | follow term vote role votes persist quiet
  | count _ _ _ _ _ _ _ _ _ quiet =>
    rw [quiet m mem] at loud
    cases loud
  | grant _ req cause _ term _ vote _ _ persist sent =>
    subst sent
    cases mem_singleton.mp mem
    exact ⟨persist,.inl ⟨req,cause,rfl,term,vote⟩⟩
  | campaign _ _ term vote _ _ persist sent =>
    obtain ⟨_,other,eq⟩ := sent m mem loud
    exact ⟨persist,.inr ⟨eq,other,term,vote⟩⟩

def HasRoom (c : Cluster S) : Event → Prop
  | .tick id _ _ => ∀ n ∈ c.nodes id, n.raft.soft.role ≠ .leader → n.raft.hard.currentTerm < u64Max
  | _ => True

instance (c : Cluster S) : (e : Event) → Decidable (HasRoom c e)
  | .tick .. => inferInstanceAs (Decidable (∀ _ ∈ _, _ → _))
  | .deliver .. | .propose .. | .readIndex .. | .proposeConfChange .. | .request .. | .crash .. => isTrue trivial

omit [RaftStorage S] [LawfulRaftStorage S] in
theorem roomOf [Bincode] {c : Cluster S} (room : HasRoom c e)
    (found : c.nodes (actor e) = some n) (core : CoreCall n.raft e r' actions out) : Room n.raft (incoming e) := by
  intro alone follows
  cases core with
  | tick => exact room n found follows
  | deliver => cases alone
  | propose leads | readIndex leads | proposeConfChange leads => exact absurd leads follows

theorem memPosted {id} (mem : (⟨s,p,msg⟩ : Envelope) ∈ posted id sent) : s = id ∧ (p,msg) ∈ sent := by
  obtain ⟨m,inside,eq⟩ := mem_map.mp mem
  cases eq
  exact ⟨rfl,inside⟩

structure Call (c : Cluster S) (id : NodeId) (n : RaftNode S) (r' : Raft)
    (incoming : Option (NodeId × RpcMessage)) (n' : RaftNode S) (sent : Outbound) : Prop where
  found : c.nodes id = some n
  received : ∀ s m, incoming = some (s,m) → ⟨s,id,m⟩ ∈ c.net
  same : n'.raft = {r' with log := n'.raft.log}
  config : r'.config.id = n.raft.config.id
  trail : Trail (durable n.storage) n'.storage r'.hard
  effect : ∃ out saved, VoteEffect n.raft r' incoming out saved ∧ (∀ m ∈ sent, m ∈ out) ∧
    (saved → sent ≠ [] → durable n'.storage = r'.hard)

namespace Call
variable {c : Cluster S} {id : NodeId} {n n' : RaftNode S} {r' : Raft}
  {incoming : Option (NodeId × RpcMessage)} {sent : Outbound}

theorem self (inv : Ballots c) (call : Call c id n r' incoming n' sent) :
    n.raft.config.id = id := (inv.nodes call.found).self

theorem loud (inv : Ballots c) (call : Call c id n r' incoming n' sent) (mem : m ∈ sent)
    (vote : isVote m.2 = true) : durable n'.storage = r'.hard ∧
    ((∃ req, ⟨m.1,id,.requestVote req⟩ ∈ c.net ∧ m.2 = .requestVoteResp ⟨req.term,true⟩ ∧
        r'.hard.currentTerm = req.term ∧ r'.hard.votedFor = some m.1) ∨
      (∃ req, m.2 = .requestVote req ∧ req.candidateId = id ∧ m.1 ≠ id ∧
        r'.hard.currentTerm = req.term ∧ r'.hard.votedFor = some id)) := by
  obtain ⟨_,_,effect,inside,written⟩ := call.effect
  obtain ⟨persist,which⟩ := effectLoud effect (inside m mem) vote
  refine ⟨written persist (ne_nil_of_mem mem),?_⟩
  rcases which with ⟨req,cause,eq,term,voted⟩ | ⟨eq,other,term,voted⟩
  · have delivered := call.received _ _ cause
    rw [(inv.honest delivered).1] at voted
    exact .inl ⟨req,delivered,eq,term,voted⟩
  · rw [call.self inv] at other voted
    exact .inr ⟨campaignReq n.raft,eq,call.self inv,other,term,voted⟩

theorem votedSplit (inv : Ballots c) (call : Call c id n r' incoming n' sent)
    (voted : Voted (c.net ++ posted id sent) v x t) : Voted c.net v x t ∨
    (v = id ∧ durable n'.storage = r'.hard ∧ r'.hard.currentTerm = t ∧ r'.hard.votedFor = some x) := by
  rcases voted with granted | ⟨self,peer,req,term,mem⟩
  · rcases mem_append.mp granted with old | new
    · exact .inl (.inl old)
    · obtain ⟨who,mem⟩ := memPosted new
      obtain ⟨kept,⟨req,_,eq,term,voted⟩ | ⟨req,eq,_⟩⟩ := call.loud inv mem rfl
      · cases eq
        exact .inr ⟨who,kept,term,voted⟩
      · cases eq
  · rcases mem_append.mp mem with old | new
    · exact .inl (.inr ⟨self,peer,req,term,old⟩)
    · obtain ⟨who,mem⟩ := memPosted new
      obtain ⟨kept,⟨_,_,eq,_⟩ | ⟨_,eq,_,_,term',voted⟩⟩ := call.loud inv mem rfl
      · cases eq
      · cases eq
        refine .inr ⟨self.trans who,kept,term'.trans term,?_⟩
        rw [who]
        exact voted

theorem backsAfter (call : Call c id n r' incoming n' sent)
    (backs : Backs (durable n.storage) t x) : Backs r'.hard t x :=
  backs.mono (behindTrans call.trail.grown (behindTrans call.trail.flushed call.trail.saved))

theorem unique (inv : Ballots c) (call : Call c id n r' incoming n' sent)
    (left : Voted (c.net ++ posted id sent) v x t) (right : Voted (c.net ++ posted id sent) v y t) : x = y := by
  have clash : ∀ {v x y t}, Voted c.net v x t → v = id → r'.hard.currentTerm = t →
      r'.hard.votedFor = some y → x = y := by
    intro v x y t old who term vote
    obtain ⟨m,found,backs⟩ := inv.backed old
    subst who
    cases some.inj (call.found.symm.trans found)
    rcases call.backsAfter backs with _ | ⟨_,same⟩
    · omega
    · exact some.inj (same.symm.trans vote)
  rcases call.votedSplit inv left with old | ⟨who,_,term,vote⟩
  · rcases call.votedSplit inv right with old' | ⟨who,_,term,vote⟩
    · exact inv.unique old old'
    · exact clash old who term vote
  · rcases call.votedSplit inv right with old | ⟨_,_,_,vote'⟩
    · exact (clash old who term vote).symm
    · exact some.inj (vote.symm.trans vote')

theorem backed (inv : Ballots c) (call : Call c id n r' incoming n' sent)
    (voted : Voted (c.net ++ posted id sent) v x t) :
    ∃ m, (c.put id n' sent).nodes v = some m ∧ Backs (durable m.storage) t x := by
  rcases call.votedSplit inv voted with old | ⟨who,kept,term,vote⟩
  · obtain ⟨m,found,backs⟩ := inv.backed old
    by_cases who : v = id
    · subst who
      cases some.inj (call.found.symm.trans found)
      exact ⟨n',by simp [put],backs.mono call.trail.grown⟩
    · exact ⟨m,by simpa [put,who] using found,backs⟩
  · subst who
    refine ⟨n',by simp [put],?_⟩
    rw [kept]
    exact .inr ⟨term,vote⟩

theorem honest (inv : Ballots c) (call : Call c id n r' incoming n' sent)
    (mem : ⟨s,p,.requestVote req⟩ ∈ c.net ++ posted id sent) : req.candidateId = s ∧ s ≠ p := by
  rcases mem_append.mp mem with old | new
  · exact inv.honest old
  · obtain ⟨who,mem⟩ := memPosted new
    obtain ⟨_,⟨_,_,eq,_⟩ | ⟨_,eq,candidate,other,_⟩⟩ := call.loud inv mem rfl
    · cases eq
    · cases eq
      exact ⟨candidate.trans who.symm,fun same => other (same ▸ who)⟩

theorem answers (inv : Ballots c) (call : Call c id n r' incoming n' sent)
    (granted : Granted (c.net ++ posted id sent) v x t) : Asked (c.net ++ posted id sent) x v t := by
  rcases mem_append.mp granted with old | new
  · exact (inv.answers old).mono
  · obtain ⟨who,mem⟩ := memPosted new
    obtain ⟨_,⟨req,asked,eq,_⟩ | ⟨_,eq,_⟩⟩ := call.loud inv mem rfl
    · cases eq
      subst who
      exact ⟨req,rfl,mem_append_left _ asked⟩
    · cases eq

theorem counted (inv : Ballots c) (call : Call c id n r' incoming n' sent)
    (candidate : r'.soft.role = .candidate ∨ (r'.soft.role = .leader ∧ n.raft.soft.role ≠ .leader)) :
    ∀ v ∈ r'.votes, v = id ∨ Granted (c.net ++ posted id sent) v id r'.hard.currentTerm := by
  obtain ⟨_,_,effect,_⟩ := call.effect
  have before := (inv.nodes call.found).votes
  intro v mem
  have carry : n.raft.soft.role = .candidate → v ∈ n.raft.votes → r'.hard.currentTerm = n.raft.hard.currentTerm →
      v = id ∨ Granted (c.net ++ posted id sent) v id r'.hard.currentTerm := by
    intro was mem term
    rw [term]
    exact (before was v mem).imp_right Granted.mono
  cases effect with
  | keep term _ role votes =>
    rw [votes] at mem
    refine carry ?_ mem term
    rw [role] at candidate
    rcases candidate with is | ⟨leads,not⟩
    · exact is
    · exact absurd leads not
  | follow _ _ _ votes =>
    rw [votes] at mem
    simp at mem
  | grant _ _ _ _ term _ _ standing =>
    rcases standing with ⟨_,_,votes⟩ | ⟨role,votes,current⟩
    · rw [votes] at mem
      simp at mem
    · rw [votes] at mem
      refine carry ?_ mem (term.trans current.symm)
      rw [role] at candidate
      rcases candidate with is | ⟨leads,not⟩
      · exact is
      · exact absurd leads not
  | campaign _ _ _ _ votes =>
    rw [votes,call.self inv] at mem
    exact .inl (Finset.mem_singleton.mp mem)
  | count _ resp cause was _ term _ votes =>
    rw [votes] at mem
    unfold Raft.countVote at mem
    split at mem
    · rename_i yes
      rcases Finset.mem_insert.mp mem with eq | old
      · have arrived := call.received _ _ cause
        have shape : resp = ⟨n.raft.hard.currentTerm,true⟩ := by
          cases resp
          simp_all
        rw [shape] at arrived
        rw [term,eq]
        exact .inr (Granted.mono arrived)
      · exact carry was old term
    · exact carry was mem term

theorem ballots (inv : Ballots c) (call : Call c id n r' incoming n' sent) : Ballots (c.put id n' sent) where
  backed := call.backed inv
  unique := call.unique inv
  honest := call.honest inv
  answers := call.answers inv
  nodes := by
    intro who m found
    by_cases same : who = id
    · subst same
      have eq : n' = m := by simpa [put] using found
      subst eq
      have hard : n'.raft.hard = r'.hard := by rw [call.same]
      refine ⟨?_,?_,?_⟩
      · rw [call.same]
        exact call.config.trans (call.self inv)
      · exact ⟨behindRefl _,call.trail.flushed,hard ▸ call.trail.saved⟩
      · have counted := call.counted inv
        rw [call.same]
        exact fun role => counted (.inl role)
    · have old := inv.nodes (by simpa [put,same] using found)
      exact ⟨old.self,old.trail,fun role v mem => (old.votes role v mem).imp_right Granted.mono⟩

end Call

theorem votedQuiet {net} (quiet : ∀ env ∈ more, isVote env.msg = false)
    (voted : Voted (net ++ more) v x t) : Voted net v x t := by
  rcases voted with granted | ⟨self,peer,req,term,mem⟩
  · rcases mem_append.mp granted with old | new
    · exact .inl old
    · cases quiet _ new
  · rcases mem_append.mp mem with old | new
    · exact .inr ⟨self,peer,req,term,old⟩
    · cases quiet _ new

theorem ballotsQuiet {c c' : Cluster S} (inv : Ballots c)
    (net : c'.net = c.net ++ more) (quiet : ∀ env ∈ more, isVote env.msg = false)
    (nodes : ∀ {id n'}, c'.nodes id = some n' → NodeBallots c'.net id n') (kept : ∀ {id n}, c.nodes id = some n →
      ∃ n', c'.nodes id = some n' ∧ durable n'.storage = durable n.storage) : Ballots c' where
  nodes := nodes
  backed := by
    intro v x t voted
    obtain ⟨n,found,backs⟩ := inv.backed (votedQuiet quiet (net ▸ voted))
    obtain ⟨n',found',same⟩ := kept found
    exact ⟨n',found',same ▸ backs⟩
  unique := by
    intro v x y t left right
    exact inv.unique (votedQuiet quiet (net ▸ left)) (votedQuiet quiet (net ▸ right))
  honest := by
    intro s p _ mem
    rw [net] at mem
    rcases mem_append.mp mem with old | new
    · exact inv.honest old
    · cases quiet _ new
  answers := by
    intro v x t granted
    rw [net] at granted ⊢
    rcases mem_append.mp granted with old | new
    · exact (inv.answers old).mono
    · cases quiet _ new

theorem NodeBallots.mono {net} {id} {n : RaftNode S} (inv : NodeBallots net id n) : NodeBallots (net ++ more) id n :=
  ⟨inv.self,inv.trail,fun role v mem => (inv.votes role v mem).imp_right Granted.mono⟩

theorem openFacts {n : RaftNode S} (opened : RaftNode.openNode config s draw = .ok n) :
    ∃ log, n = ⟨Raft.new config (buffered s) log draw,s,[]⟩ ∧ ∀ e ∈ log.entries, held s e := by
  simp only [RaftNode.openNode,bind,Except.bind] at opened
  split at opened
  · cases opened
  · rename_i hs loaded
    split at opened
    · cases opened
    · rename_i log read
      cases loadHard loaded
      exact ⟨log,(Except.ok.inj opened).symm,loadLog read⟩

theorem bootOpened {storage : NodeId → S} {id}
    (found : (boot ids voters tuning storage draw).nodes id = some n) : id ∈ ids ∧
    ∃ log, n = ⟨Raft.new ((tuning id).config id voters) (buffered (storage id)) log (draw id),
      storage id,[]⟩ ∧ ∀ e ∈ log.entries, held (storage id) e := by
  simp only [boot] at found
  split at found
  · rename_i listed
    split at found
    · rename_i opened
      cases some.inj found
      exact ⟨listed,openFacts opened⟩
    · cases found
  · cases found

theorem ballotsBoot {storage : NodeId → S} (clean : ∀ id, buffered (storage id) = durable (storage id)) :
    Ballots (boot ids voters tuning storage draw) := by
  refine ⟨?_,?_,?_,?_,?_⟩
  · intro id n found
    obtain ⟨_,_,eq,_⟩ := bootOpened found
    rw [eq]
    refine ⟨rfl,⟨behindRefl _,clean id ▸ behindRefl _,behindRefl _⟩,?_⟩
    intro role
    cases role
  · rintro v x t (granted | ⟨_,_,_,_,mem⟩)
    · cases granted
    · cases mem
  · rintro v x y t (granted | ⟨_,_,_,_,mem⟩)
    · cases granted
    · cases mem
  · intro s p _ mem
    cases mem
  · intro v x t granted
    cases granted

section
variable [Bincode]

theorem callOf {c : Cluster S} (inv : Ballots c) (room : HasRoom c e)
    (found : c.nodes (actor e) = some n) (received : ∀ s m, incoming e = some (s,m) → ⟨s,actor e,m⟩ ∈ c.net)
    (core : CoreCall n.raft e r' actions out)
    (posted : (sent = out ∧ ({n with raft := r'}.exec actions).2 = .ok (sendsOf actions)) ∨
      (sent = [] ∧ ∃ failure, ({n with raft := r'}.exec actions).2 = .error failure)) :
    Call c (actor e) n r' (incoming e) ({n with raft := r'}.exec actions).1 sent where
  found := found
  received := received
  same := execCore {n with raft := r'} actions
  config := coreId core
  trail := by
    have before := (inv.nodes found).trail
    have behind := effectBehind (coreEffect core) (roomOf room found core)
    exact execTrail (n := {n with raft := r'}) actions ⟨before.grown,before.flushed,behindTrans before.saved behind⟩
  effect := by
    refine ⟨out,_,coreEffect core,?_,?_⟩
    · rcases posted with ⟨same,_⟩ | ⟨none,_⟩
      · subst same
        exact fun m mem => mem
      · subst none
        intro m mem
        cases mem
    · intro saves some
      rcases posted with ⟨_,ok⟩ | ⟨none,_⟩
      · exact execDurable ok saves
      · exact absurd none some

theorem ballotsStep {c c' : Cluster S} (inv : Ballots c) (room : HasRoom c e)
    (step : c.step e = some c') : Ballots c' := by
  cases stepCases step with
  | call found received core posted next =>
    subst next
    exact (callOf inv room found received core posted).ballots inv
  | refused _ _ _ next =>
    subst next
    exact inv
  | @request client target req asks next =>
    subst next
    refine ballotsQuiet inv rfl ?_ (fun found => (inv.nodes found).mono) (fun found => ⟨_,found,rfl⟩)
    intro env mem
    cases mem_singleton.mp mem
    rfl
  | @crash id draw n reopened stops found opened next =>
    subst next
    obtain ⟨_,eq,_⟩ := openFacts opened
    have old := inv.nodes found
    have durableSame : durable reopened.storage = durable n.storage := by
      rw [eq]
      exact reopenDurable n.storage
    have bufferedSame : buffered reopened.storage = durable n.storage := by
      rw [eq]
      exact reopenBuffered n.storage
    have hardSame : reopened.raft.hard = durable n.storage := by
      rw [eq]
      exact reopenBuffered n.storage
    have silent : ∀ env ∈ posted id [], isVote env.msg = false := by simp [posted]
    refine ballotsQuiet inv rfl silent ?_ ?_
    · intro who m found'
      by_cases same : who = id
      · subst same
        have this : reopened = m := by simpa [put] using found'
        subst this
        refine ⟨?_,⟨behindRefl _,?_,?_⟩,?_⟩
        · rw [eq]
          exact old.self
        · rw [durableSame,bufferedSame]
          exact behindRefl _
        · rw [bufferedSame,hardSame]
          exact behindRefl _
        · rw [eq]
          intro role
          cases role
      · have this := inv.nodes (by simpa [put,same] using found')
        exact this.mono
    · intro who m found'
      by_cases same : who = id
      · subst same
        cases some.inj (found.symm.trans found')
        exact ⟨reopened,by simp [put],durableSame⟩
      · exact ⟨m,by simpa [put,same] using found',rfl⟩

end

end

structure Elected (voters : List NodeId) (net : Net) (id : NodeId) (term : Nat) : Prop where
  quorum : ∃ group : Finset NodeId, voters.length / 2 + 1 ≤ group.card ∧
    ∀ v ∈ group, v ∈ voters ∧ (v = id ∨ Granted net v id term)

theorem Elected.mono {net id} (elected : Elected voters net id term) : Elected voters (net ++ more) id term := by
  obtain ⟨group,enough,all⟩ := elected.quorum
  exact ⟨group,enough,fun v mem => ⟨(all v mem).1,(all v mem).2.imp_right Granted.mono⟩⟩

section
variable {S : Type} [RaftStorage S] [LawfulRaftStorage S]

theorem Elected.selfVote {c : Cluster S} {id} (inv : Ballots c)
    (elected : Elected voters c.net id term) : voters.length ≤ 1 ∨ Voted c.net id id term := by
  obtain ⟨group,_,all⟩ := elected.quorum
  by_cases others : ∃ v ∈ group, v ≠ id
  · obtain ⟨v,mem,other⟩ := others
    have granted := (all v mem).2.resolve_left other
    exact .inr (.inr ⟨rfl,v,inv.answers granted⟩)
  · have only : group ⊆ {id} := by
      intro v mem
      rw [Finset.mem_singleton]
      by_contra other
      exact others ⟨v,mem,other⟩
    have card := Finset.card_le_card only
    simp at card
    exact .inl (by omega)

theorem electedUnique {c : Cluster S} (inv : Ballots c)
    (left : Elected voters c.net a term) (right : Elected voters c.net b term)
    (inA : a ∈ voters) (inB : b ∈ voters) : a = b := by
  have single : voters.length ≤ 1 → a = b := by
    intro short
    match voters,inA,inB with
    | [v],inA,inB => rw [mem_singleton.mp inA,mem_singleton.mp inB]
  obtain ⟨_,enoughA,allA⟩ := left.quorum
  obtain ⟨_,enoughB,allB⟩ := right.quorum
  obtain ⟨v,_,memA,memB⟩ := Majority.meet (Majority.ofCard (fun v mem => (allA v mem).1) enoughA)
    (Majority.ofCard (fun v mem => (allB v mem).1) enoughB)
  rcases (allA v memA).2 with isA | forA
  · rcases (allB v memB).2 with isB | forB
    · exact isA.symm.trans isB
    · rcases left.selfVote inv with short | self
      · exact single short
      · subst isA
        exact inv.unique self (.inl forB)
  · rcases (allB v memB).2 with isB | forB
    · rcases right.selfVote inv with short | self
      · exact single short
      · subst isB
        exact inv.unique (.inl forA) self
    · exact inv.unique (.inl forA) (.inl forB)

variable [Bincode]

structure FixedNode (voters : List NodeId) (net : Net) (id : NodeId) (n : RaftNode S) : Prop where
  member : id ∈ voters
  list : n.raft.config.voters = voters
  joint : n.raft.jointConfig = none
  confined : Confined PlainEntry n
  leads : n.raft.soft.role = .leader → Elected voters net id n.raft.hard.currentTerm

structure Fixed (voters : List NodeId) (c : Cluster S) : Prop where
  ballots : Ballots c
  nodes : ∀ {id n}, c.nodes id = some n → FixedNode voters c.net id n
  plain : ∀ env ∈ c.net, PlainMsg env.msg

theorem FixedNode.mono {net id} {n : RaftNode S} (inv : FixedNode voters net id n) :
    FixedNode voters (net ++ more) id n :=
  ⟨inv.member,inv.list,inv.joint,inv.confined,fun role => (inv.leads role).mono⟩

theorem Call.elected {c : Cluster S} {id incoming}
    (inv : Fixed voters c) (call : Call c id n r' incoming n' sent) (leads : r'.soft.role = .leader) :
    Elected voters (c.net ++ posted id sent) id r'.hard.currentTerm := by
  have node := inv.nodes call.found
  have before := node.leads
  have counted := call.counted inv.ballots
  have size : n.raft.config.quorum = voters.length / 2 + 1 := by
    unfold RaftConfig.quorum
    rw [node.list]
  have listed : ∀ v, (v = id ∨ Granted (c.net ++ posted id sent) v id r'.hard.currentTerm) → v ∈ voters := by
    intro v which
    rcases which with eq | granted
    · exact eq ▸ node.member
    · obtain ⟨m,found,_⟩ := call.backed inv.ballots (.inl granted)
      by_cases same : v = id
      · exact same ▸ node.member
      · exact (inv.nodes (by simpa [put,same] using found)).member
  have keeps : n.raft.soft.role = .leader → r'.hard.currentTerm = n.raft.hard.currentTerm →
      Elected voters (c.net ++ posted id sent) id r'.hard.currentTerm := by
    intro led term
    rw [term]
    exact (before led).mono
  have wins : n.raft.soft.role ≠ .leader → n.raft.config.quorum ≤ r'.votes.card →
      Elected voters (c.net ++ posted id sent) id r'.hard.currentTerm := by
    intro was enough
    have all := counted (.inr ⟨leads,was⟩)
    exact ⟨r'.votes,size ▸ enough,fun v mem => ⟨listed v (all v mem),all v mem⟩⟩
  obtain ⟨_,_,effect,_⟩ := call.effect
  cases effect with
  | keep term _ role => exact keeps (role ▸ leads) term
  | follow _ _ role =>
    rw [role] at leads
    cases leads
  | grant _ _ _ _ term _ _ standing =>
    rcases standing with ⟨_,role,_⟩ | ⟨role,_,current⟩
    · rw [role] at leads
      cases leads
    · exact keeps (role ▸ leads) (term.trans current.symm)
  | campaign _ was _ _ votes role =>
    rcases role with role | ⟨_,single⟩
    · rw [role] at leads
      cases leads
    · exact wins was (by rw [votes,Finset.card_singleton]; exact single)
  | count _ _ _ was _ _ _ _ role =>
    rcases role with role | ⟨_,enough⟩
    · rw [role] at leads
      cases leads
    · exact wins (by rw [was]; simp) enough

def FixedStep (c : Cluster S) (e : Event) : Prop := PlainEvent e ∧ HasRoom c e

instance (c : Cluster S) (e) : Decidable (FixedStep c e) := inferInstanceAs (Decidable (_ ∧ _))

theorem fixedCall {voters : List NodeId} {c : Cluster S}
    (inv : Fixed voters c) (ok : FixedStep c e) (found : c.nodes (actor e) = some n)
    (core : CoreCall n.raft e r' actions out)
    (call : Call c (actor e) n r' (incoming e) ({n with raft := r'}.exec actions).1 sent)
    (inside : ∀ m ∈ sent, m ∈ out) :
    Fixed voters (c.put (actor e) ({n with raft := r'}.exec actions).1 sent) := by
  have node := inv.nodes found
  have message : ∀ s m, incoming e = some (s,m) → PlainMsg m :=
    fun s m arrives => inv.plain _ (call.received s m arrives)
  obtain ⟨effect,covers⟩ := corePlain core node.confined.log message ok.1
  have same := call.same
  refine ⟨call.ballots inv.ballots,?_,?_⟩
  · intro who m there
    by_cases eq : who = actor e
    · subst eq
      have this : ({n with raft := r'}.exec actions).1 = m := by
        simpa [put] using there
      subst this
      refine ⟨node.member,?_,?_,?_,?_⟩
      · rw [same]
        exact (congrArg RaftConfig.voters effect.config).trans node.list
      · rw [same]
        exact effect.joint.trans node.joint
      · exact execConfined (n := {n with raft := r'}) covers ⟨effect.log,node.confined.store⟩
      · have elected := call.elected inv
        rw [same]
        exact elected
    · exact (inv.nodes (by simpa [put,eq] using there)).mono
  · intro env mem
    rcases mem_append.mp mem with old | new
    · exact inv.plain env old
    · obtain ⟨m,sentMem,eq⟩ := mem_map.mp new
      rw [← eq]
      exact effect.sent m (inside m sentMem)

theorem fixedStep {voters : List NodeId} {c c' : Cluster S} (inv : Fixed voters c)
    (ok : FixedStep c e) (step : c.step e = some c') : Fixed voters c' := by
  have ballots := ballotsStep inv.ballots ok.2 step
  cases stepCases step with
  | call found received core posted next =>
    subst next
    refine fixedCall inv ok found core (callOf inv.ballots ok.2 found received core posted) ?_
    rcases posted with ⟨eq,_⟩ | ⟨eq,_⟩ <;> subst eq
    · exact fun m mem => mem
    · intro m mem
      cases mem
  | refused _ _ _ next =>
    subst next
    exact inv
  | request _ next =>
    subst next
    refine ⟨ballots,fun found => (inv.nodes found).mono,?_⟩
    intro env mem
    rcases mem_append.mp mem with old | new
    · exact inv.plain env old
    · cases mem_singleton.mp new
      trivial
  | @crash id draw n reopened stops found opened next =>
    subst next
    obtain ⟨_,eq,loaded⟩ := openFacts opened
    have node := inv.nodes found
    have kept : ∀ e, held (RaftStorage.reopen n.storage) e → PlainEntry e :=
      fun e there => node.confined.store e (reopenEntries n.storage e there)
    refine ⟨ballots,?_,?_⟩
    · intro who m there
      by_cases same : who = id
      · subst same
        have this : reopened = m := by simpa [put] using there
        subst this
        rw [eq]
        refine ⟨node.member,node.list,rfl,⟨fun e mem => kept e (loaded e mem),kept⟩,?_⟩
        intro role
        cases role
      · exact (inv.nodes (by simpa [put,same] using there)).mono
    · intro env mem
      exact inv.plain env (by simpa [put,posted] using mem)

theorem fixedRun {c c' : Cluster S} (inv : Fixed voters c)
    (ok : Execution.Admissible step FixedStep c events) (done : c.run events = some c') : Fixed voters c' :=
  Execution.runInvariant (fun _ _ _ inv ok step => fixedStep inv ok step) inv ok done

structure Opens (s : S) : Prop where
  clean : buffered s = durable s
  plain : ∀ e, held s e → PlainEntry e

theorem fixedBoot {storage : NodeId → S} (peers : ∀ id ∈ ids, id ∈ voters) (opens : ∀ id, Opens (storage id)) :
    Fixed voters (boot ids voters tuning storage draw) := by
  refine ⟨ballotsBoot (fun id => (opens id).clean),?_,?_⟩
  · intro id n found
    obtain ⟨listed,_,eq,loaded⟩ := bootOpened found
    rw [eq]
    refine ⟨peers id listed,rfl,rfl,⟨fun e mem => (opens id).plain e (loaded e mem), (opens id).plain⟩,?_⟩
    intro role
    cases role
  · intro _ mem
    cases mem

end

section
variable {S : Type} [RaftStorage S] [Bincode]

theorem stepNet {c c' : Cluster S} (step : c.step e = some c') : ∃ more, c'.net = c.net ++ more := by
  cases stepCases step with
  | call found received core posted next | request asks next
  | crash _ _ _ next => exact ⟨_,congrArg net next⟩
  | refused _ _ _ next => exact ⟨[],by rw [next,append_nil]⟩

theorem runNet {c c' : Cluster S} (done : c.run events = some c') : ∃ more, c'.net = c.net ++ more := by
  refine Execution.runRelation (R := fun c c' => ∃ more, c'.net = c.net ++ more)
    (fun c => ⟨[],by simp⟩) ?_ stepNet done
  intro a b c ab bc
  obtain ⟨first,eq⟩ := ab
  obtain ⟨second,eq'⟩ := bc
  exact ⟨first ++ second,by rw [eq',eq,append_assoc]⟩

end

def leaderTerm {S : Type} (c : Cluster S) (id : NodeId) : Option Nat := do
  let n ← c.nodes id
  if n.raft.soft.role = .leader then some n.raft.hard.currentTerm else none

theorem leaderTermSome {S : Type} {c : Cluster S} {id} (leads : leaderTerm c id = some term) :
    ∃ n, c.nodes id = some n ∧ n.raft.soft.role = .leader ∧ n.raft.hard.currentTerm = term := by
  simp only [leaderTerm,bind,bind_eq_some_iff] at leads
  obtain ⟨n,found,last⟩ := leads
  split at last
  · rename_i role
    exact ⟨n,found,role,some.inj last⟩
  · cases last

theorem oneLeaderPerTerm {S : Type} [RaftStorage S] [LawfulRaftStorage S] [Bincode]
    {ids voters : List NodeId} {tuning : NodeId → Tuning} {storage : NodeId → S}
    {draw : NodeId → Nat} (peers : ∀ id ∈ ids, id ∈ voters) (opens : ∀ id, Opens (storage id))
    {first later : List Event} {c₁ c₂ : Cluster S}
    (run₁ : (Cluster.boot ids voters tuning storage draw).run first = some c₁) (run₂ : c₁.run later = some c₂)
    (ok : Execution.Admissible Cluster.step FixedStep (Cluster.boot ids voters tuning storage draw) (first ++ later))
    {a b : NodeId} {term : Nat} (leadsA : leaderTerm c₁ a = some term)
    (leadsB : leaderTerm c₂ b = some term) : a = b := by
  obtain ⟨ok₁,ok₂⟩ := Execution.admissibleSplit run₁ ok
  have inv₁ := fixedRun (fixedBoot peers opens) ok₁ run₁
  have inv₂ := fixedRun inv₁ ok₂ run₂
  obtain ⟨n,foundA,roleA,termA⟩ := leaderTermSome leadsA
  obtain ⟨m,foundB,roleB,termB⟩ := leaderTermSome leadsB
  obtain ⟨_,net⟩ := runNet run₂
  have nodeA := inv₁.nodes foundA
  have nodeB := inv₂.nodes foundB
  have electedA : Elected voters c₂.net a term := by
    rw [net,← termA]
    exact (nodeA.leads roleA).mono
  have electedB : Elected voters c₂.net b term := by
    rw [← termB]
    exact nodeB.leads roleB
  exact electedUnique inv₂.ballots electedA electedB nodeA.member nodeB.member

/- Three peers on empty directories. The first wins term 1 with the vote of the
second, which then restarts from its files; the third one's first write fails. -/
def threeFiles : Cluster FileStorage :=
  Cluster.boot [1,2,3] [1,2,3] (fun _ => ⟨100,100,25,64⟩)
    (fun peer => .openDir ⟨none,none,none⟩ (if peer = 3 then [some "disk full"] else [])) (fun _ => 0)

def firstElection : List Event :=
  [.tick 1 100 0,.deliver ⟨1,2,.requestVote ⟨1,1,0,0⟩⟩ 0,
    .deliver ⟨1,3,.requestVote ⟨1,1,0,0⟩⟩ 0,.deliver ⟨2,1,.requestVoteResp ⟨1,true⟩⟩ 0]

def restart : List Event := [.crash 2 0,.deliver ⟨1,2,.requestVote ⟨1,1,0,0⟩⟩ 0,.crash 3 0,.tick 3 50 0]

theorem threeFilesOpen (peer) : Opens (FileStorage.openDir ⟨none,none,none⟩
    (if peer = 3 then [some "disk full"] else [])) := by
  refine ⟨rfl,fun e there => ?_⟩
  have sentinel : e ∈ RaftLog.new.entries := there.elim id id
  cases mem_singleton.mp sentinel
  exact decodeEmpty

theorem oneLeaderThreeFiles : ∃ c₁ c₂, threeFiles.run firstElection = some c₁ ∧
    c₁.run restart = some c₂ ∧ leaderTerm c₁ 1 = some 1 ∧ leaderTerm c₂ 1 = some 1 ∧ (1 : NodeId) = 1 := by
  obtain ⟨c₁,run₁,c₂,run₂,leads₁,leads₂⟩ : ∃ c₁ ∈ threeFiles.run firstElection, ∃ c₂ ∈ c₁.run restart,
      leaderTerm c₁ 1 = some 1 ∧ leaderTerm c₂ 1 = some 1 := by decide +kernel
  exact ⟨c₁,c₂,run₁,run₂,leads₁,leads₂,oneLeaderPerTerm (by decide) threeFilesOpen run₁ run₂
    (by decide +kernel) leads₁ leads₂⟩

end NoeDB.RaftElection
