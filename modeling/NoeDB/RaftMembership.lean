import NoeDB.RaftElection

/-! Elections while the voter list changes. Every node counts with the list it has
applied so far, so the majorities of one term may come from different lists. The
elections won in a run are recorded with the list they were won with; a term has one
winner as long as winners count only voters of their list and the lists of one term
have overlapping majorities. -/
namespace NoeDB.RaftMembership
open RaftTypes RaftRuntime RaftCluster RaftEffects RaftDurability RaftSteps RaftElection List Option Execution

structure Win where
  id : NodeId
  term : Nat
  voters : List NodeId
  deriving DecidableEq, Repr

structure Watched (S : Type) where
  cluster : Cluster S
  wins : List Win

def Overlap (a b : List NodeId) : Prop :=
  (a ++ b).toFinset.card < (a.length / 2 + 1) + (b.length / 2 + 1)

instance (a b) : Decidable (Overlap a b) := inferInstanceAs (Decidable (_ < _))

theorem Overlap.meet (overlap : Overlap a b) {left right : Finset NodeId}
    (inA : ∀ v ∈ left, v ∈ a) (inB : ∀ v ∈ right, v ∈ b) (enoughA : a.length / 2 + 1 ≤ left.card)
    (enoughB : b.length / 2 + 1 ≤ right.card) : ∃ v, v ∈ left ∧ v ∈ right := by
  have inside : left ∪ right ⊆ (a ++ b).toFinset := by
    intro v mem
    rw [List.mem_toFinset,mem_append]
    exact (Finset.mem_union.mp mem).imp (inA v) (inB v)
  have size := Finset.card_le_card inside
  have parts := Finset.card_union_add_card_inter left right
  have some : 0 < (left ∩ right).card := by
    unfold Overlap at overlap
    omega
  obtain ⟨v,mem⟩ := Finset.card_pos.mp some
  exact ⟨v,Finset.mem_inter.mp mem⟩

section
variable {S : Type}

def winsOf (c c' : Cluster S) (id : NodeId) : List Win :=
  match c.nodes id,c'.nodes id with
  | some n,some n' =>
      if n'.raft.soft.role = .leader ∧ n.raft.soft.role ≠ .leader then
        [⟨id,n'.raft.hard.currentTerm,n.raft.config.voters⟩]
      else []
  | _,_ => []

@[mk_iff]
structure SafeWin (wins : List Win) (n : RaftNode S) (term : Nat) (votes : Finset NodeId) : Prop where
  listed : ∀ v ∈ votes, v ∈ n.raft.config.voters
  overlap : ∀ x ∈ wins, x.term = term → x.id ≠ n.raft.config.id →
    Overlap n.raft.config.voters x.voters

instance (wins) (n : RaftNode S) (term votes) : Decidable (SafeWin wins n term votes) :=
  decidable_of_iff' _ (safeWin_iff wins n term votes)

def CountsSafely (wins : List Win) (n : RaftNode S) (sender : NodeId) : RpcMessage → Prop
  | .requestVoteResp resp => n.raft.soft.role = .candidate → resp.term = n.raft.hard.currentTerm →
      n.raft.config.quorum ≤ (n.raft.countVote sender resp).votes.card →
      SafeWin wins n n.raft.hard.currentTerm (n.raft.countVote sender resp).votes
  | _ => True

def WinsSafely (w : Watched S) : Event → Prop
  | .tick id _ _ => ∀ n ∈ w.cluster.nodes id, n.raft.soft.role ≠ .leader →
      n.raft.config.quorum ≤ 1 →
      SafeWin w.wins n (termNext n.raft.hard.currentTerm) {n.raft.config.id}
  | .deliver env _ => ∀ n ∈ w.cluster.nodes env.target, CountsSafely w.wins n env.sender env.msg
  | _ => True

instance (wins) (n : RaftNode S) (sender m) : Decidable (CountsSafely wins n sender m) := by
  cases m <;> unfold CountsSafely <;> infer_instance

instance (w : Watched S) : (e : Event) → Decidable (WinsSafely w e)
  | .tick .. => inferInstanceAs (Decidable (∀ _ ∈ _, _ → _ → _))
  | .deliver .. => inferInstanceAs (Decidable (∀ _ ∈ _, CountsSafely _ _ _ _))
  | .propose .. | .readIndex .. | .proposeConfChange .. | .request .. | .crash .. => isTrue trivial

@[mk_iff]
structure ChangeStep (w : Watched S) (e : Event) : Prop where
  calm : CrashFree e
  room : HasRoom w.cluster e
  safe : WinsSafely w e

instance (w : Watched S) (e) : Decidable (ChangeStep w e) := decidable_of_iff' _ (changeStep_iff w e)

variable [RaftStorage S] [LawfulRaftStorage S]

structure Record (w : Watched S) : Prop where
  ballots : Ballots w.cluster
  self : ∀ {id n}, w.cluster.nodes id = some n → n.raft.soft.role ≠ .follower →
    n.raft.hard.votedFor = some id
  elected : ∀ x ∈ w.wins, Elected x.voters w.cluster.net x.id x.term
  own : ∀ x ∈ w.wins, ∀ {y}, Granted w.cluster.net x.id y x.term → y = x.id
  backs : ∀ x ∈ w.wins, ∃ n, w.cluster.nodes x.id = some n ∧ Backs n.raft.hard x.term x.id
  leads : ∀ {id n}, w.cluster.nodes id = some n → n.raft.soft.role = .leader →
    ∃ x ∈ w.wins, x.id = id ∧ x.term = n.raft.hard.currentTerm
  unique : ∀ x ∈ w.wins, ∀ y ∈ w.wins, x.term = y.term → x.id = y.id

theorem winnersMeet {c : Cluster S} (inv : Ballots c) {x y : Win}
    (left : Elected x.voters c.net x.id x.term) (right : Elected y.voters c.net y.id y.term)
    (ownX : ∀ {z}, Granted c.net x.id z x.term → z = x.id) (ownY : ∀ {z}, Granted c.net y.id z y.term → z = y.id)
    (overlap : Overlap y.voters x.voters) (term : x.term = y.term) : x.id = y.id := by
  obtain ⟨_,enoughX,allX⟩ := left.quorum
  obtain ⟨_,enoughY,allY⟩ := right.quorum
  obtain ⟨v,memY,memX⟩ := overlap.meet (fun v mem => (allY v mem).1) (fun v mem => (allX v mem).1) enoughY enoughX
  rcases (allX v memX).2 with isX | forX
  · rcases (allY v memY).2 with isY | forY
    · exact isX.symm.trans isY
    · rw [isX,← term] at forY
      exact (ownX forY).symm
  · rcases (allY v memY).2 with isY | forY
    · rw [isY,term] at forX
      exact ownY forX
    · rw [term] at forX
      exact inv.unique (.inl forX) (.inl forY)

theorem callStanding {c : Cluster S} {id} (inv : Ballots c) (call : Call c id n r' inc n' sent)
    (self : n.raft.soft.role ≠ .follower → n.raft.hard.votedFor = some id) :
    (r'.soft.role ≠ .follower → r'.hard.votedFor = some id) ∧ (r'.soft.role = .leader → n.raft.soft.role = .leader →
      r'.hard.currentTerm = n.raft.hard.currentTerm) := by
  obtain ⟨_,_,effect,_⟩ := call.effect
  cases effect with
  | keep term vote role =>
    rw [role,vote]
    exact ⟨self,fun _ _ => term⟩
  | follow _ _ role =>
    rw [role]
    exact ⟨fun other => absurd rfl other,fun leads => by cases leads⟩
  | grant _ _ cause _ term free _ standing =>
    rcases standing with ⟨_,role,_⟩ | ⟨role,_,current⟩
    · rw [role]
      exact ⟨fun other => absurd rfl other,fun leads => by cases leads⟩
    · refine ⟨?_,fun _ _ => term.trans current.symm⟩
      intro other
      rw [role] at other
      have mine := self other
      obtain ⟨candidate,apart⟩ := inv.honest (call.received _ _ cause)
      rcases free with _ | none | same
      · omega
      · rw [none] at mine
        cases mine
      · rw [mine,candidate] at same
        exact absurd (some.inj same).symm apart
  | campaign _ was _ vote =>
    rw [vote,call.self inv]
    exact ⟨fun _ => rfl,fun _ led => absurd led was⟩
  | count _ _ _ was _ term vote =>
    rw [vote]
    exact ⟨fun _ => self (by rw [was]; simp),fun _ _ => term⟩

theorem Record.quiet {w : Watched S} (inv : Record w)
    (ballots : Ballots {w.cluster with net := w.cluster.net ++ more})
    (quiet : ∀ env ∈ more, isVote env.msg = false) :
    Record ⟨{w.cluster with net := w.cluster.net ++ more},w.wins⟩ := by
  refine ⟨ballots,inv.self,fun x mem => (inv.elected x mem).mono,?_,inv.backs,inv.leads,inv.unique⟩
  intro x mem y granted
  rcases votedQuiet quiet (.inl granted) with old | ⟨same,_⟩
  · exact inv.own x mem old
  · exact same.symm

theorem recordBoot {storage : NodeId → S} (clean : ∀ id, buffered (storage id) = durable (storage id)) :
    Record ⟨Cluster.boot ids voters tuning storage draw,[]⟩ := by
  have follows : ∀ {id n}, (Cluster.boot ids voters tuning storage draw).nodes id = some n →
      n.raft.soft.role = .follower := by
    intro id n found
    obtain ⟨_,_,eq,_⟩ := bootOpened found
    rw [eq]
    rfl
  refine ⟨ballotsBoot clean,?_,?_,?_,?_,?_,?_⟩
  · intro id n found other
    exact absurd (follows found) other
  · intro x mem
    cases mem
  · intro x mem
    cases mem
  · intro x mem
    cases mem
  · intro _ n found leads
    rw [follows found] at leads
    cases leads
  · intro x mem
    cases mem

structure Recorded (w : Watched S) (id : NodeId) (n n' : RaftNode S) (sent : Outbound) : Prop where
  found : w.cluster.nodes id = some n
  ballots : Ballots (w.cluster.put id n' sent)
  self : n'.raft.soft.role ≠ .follower → n'.raft.hard.votedFor = some id
  keeps : n'.raft.soft.role = .leader → n.raft.soft.role = .leader →
    n'.raft.hard.currentTerm = n.raft.hard.currentTerm
  behind : Behind n.raft.hard n'.raft.hard
  granted : ∀ {v x t}, Granted (w.cluster.put id n' sent).net v x t → Granted w.cluster.net v x t ∨
    (v = id ∧ n'.raft.hard.currentTerm = t ∧ n'.raft.hard.votedFor = some x)
  wins : n'.raft.soft.role = .leader → n.raft.soft.role ≠ .leader →
    Elected n.raft.config.voters (w.cluster.put id n' sent).net id n'.raft.hard.currentTerm ∧
    ∀ x ∈ w.wins, x.term = n'.raft.hard.currentTerm → x.id ≠ id →
      Overlap n.raft.config.voters x.voters

theorem Record.leadsElse {w : Watched S} (inv : Record w) {id} (other : who ≠ id)
    (there : (w.cluster.put id n' sent).nodes who = some m) (leads : m.raft.soft.role = .leader) :
    ∃ x ∈ w.wins, x.id = who ∧ x.term = m.raft.hard.currentTerm :=
  inv.leads ((putElse w.cluster n' sent other).symm.trans there) leads

theorem Recorded.ownNew {w : Watched S} {id} (call : Recorded w id n n' sent) (leads : n'.raft.soft.role = .leader)
    (granted : Granted (w.cluster.put id n' sent).net id y n'.raft.hard.currentTerm) : y = id := by
  have here := putHere w.cluster id n' sent
  have vote := call.self (by rw [leads]; simp)
  obtain ⟨m,there,backs⟩ := call.ballots.backed (.inl granted)
  cases some.inj (here.symm.trans there)
  have trail := (call.ballots.nodes here).trail
  rcases backs.mono (behindTrans trail.flushed trail.saved) with _ | ⟨_,mine⟩
  · omega
  · rw [vote] at mine
    exact (some.inj mine).symm

section
variable {w : Watched S} {id : NodeId} {n n' : RaftNode S} {sent : Outbound}
  (inv : Record w) (call : Recorded w id n n' sent)
include inv call

theorem Recorded.backs (mem : x ∈ w.wins) :
    ∃ m, (w.cluster.put id n' sent).nodes x.id = some m ∧ Backs m.raft.hard x.term x.id := by
  obtain ⟨m,there,backs⟩ := inv.backs x mem
  by_cases same : x.id = id
  · rw [same] at there backs ⊢
    cases some.inj (call.found.symm.trans there)
    exact ⟨n',putHere w.cluster id n' sent,backs.mono call.behind⟩
  · exact ⟨m,(putElse w.cluster n' sent same).trans there,backs⟩

theorem Recorded.own {x} (mem : x ∈ w.wins) {y}
    (granted : Granted (w.cluster.put id n' sent).net x.id y x.term) : y = x.id := by
  rcases call.granted granted with old | ⟨who,_,vote⟩
  · exact inv.own x mem old
  · obtain ⟨m,there,backs⟩ := Recorded.backs inv call mem
    rw [who,putHere] at there
    cases some.inj there
    rcases backs with _ | ⟨_,mine⟩
    · omega
    · exact some.inj (vote.symm.trans mine)

theorem Recorded.selfAll (there : (w.cluster.put id n' sent).nodes who = some m)
    (other : m.raft.soft.role ≠ .follower) : m.raft.hard.votedFor = some who := by
  by_cases same : who = id
  · subst same
    cases some.inj ((putHere w.cluster who n' sent).symm.trans there)
    exact call.self other
  · exact inv.self ((putElse w.cluster n' sent same).symm.trans there) other

theorem Recorded.keep (no : ¬ (n'.raft.soft.role = .leader ∧ n.raft.soft.role ≠ .leader)) :
    Record ⟨w.cluster.put id n' sent,w.wins⟩ := by
  refine ⟨call.ballots,Recorded.selfAll inv call,fun x mem => (inv.elected x mem).mono,
    fun x mem => Recorded.own inv call mem,fun x mem => Recorded.backs inv call mem,?_,inv.unique⟩
  intro who m there role
  by_cases same : who = id
  · subst same
    cases some.inj ((putHere w.cluster who n' sent).symm.trans there)
    have led : n.raft.soft.role = .leader := by
      by_contra was
      exact no ⟨role,was⟩
    obtain ⟨x,mem,is,term⟩ := inv.leads call.found led
    exact ⟨x,mem,is,by rw [call.keeps role led]; exact term⟩
  · exact inv.leadsElse same there role

theorem Recorded.win (leads : n'.raft.soft.role = .leader) (was : n.raft.soft.role ≠ .leader) :
    Record ⟨w.cluster.put id n' sent, w.wins ++ [⟨id,n'.raft.hard.currentTerm,n.raft.config.voters⟩]⟩ := by
  have here := putHere w.cluster id n' sent
  have vote := call.self (by rw [leads]; simp)
  obtain ⟨elected,overlap⟩ := call.wins leads was
  have single : ∀ x ∈ w.wins, x.term = n'.raft.hard.currentTerm → x.id = id := by
    intro x mem term
    by_contra other
    exact other (winnersMeet (y := ⟨id,n'.raft.hard.currentTerm,n.raft.config.voters⟩) call.ballots
      (inv.elected x mem).mono elected (Recorded.own inv call mem) (call.ownNew leads)
      (overlap x mem term other) term)
  refine ⟨call.ballots,Recorded.selfAll inv call,?_,?_,?_,?_,?_⟩
  · intro x mem
    rcases mem_append.mp mem with old | new
    · exact (inv.elected x old).mono
    · cases mem_singleton.mp new
      exact elected
  · intro x mem y granted
    rcases mem_append.mp mem with old | new
    · exact Recorded.own inv call old granted
    · cases mem_singleton.mp new
      exact call.ownNew leads granted
  · intro x mem
    rcases mem_append.mp mem with old | new
    · exact Recorded.backs inv call old
    · cases mem_singleton.mp new
      exact ⟨n',here,.inr ⟨rfl,vote⟩⟩
  · intro who m there role
    by_cases same : who = id
    · subst same
      cases some.inj (here.symm.trans there)
      exact ⟨_,mem_append_right _ (mem_singleton_self _),rfl,rfl⟩
    · obtain ⟨x,mem,facts⟩ := inv.leadsElse same there role
      exact ⟨x,mem_append_left _ mem,facts⟩
  · intro x memX y memY term
    rcases mem_append.mp memX with oldX | newX
    · rcases mem_append.mp memY with oldY | newY
      · exact inv.unique x oldX y oldY term
      · cases mem_singleton.mp newY
        exact single x oldX term
    · cases mem_singleton.mp newX
      rcases mem_append.mp memY with oldY | newY
      · exact (single y oldY term.symm).symm
      · cases mem_singleton.mp newY
        rfl

theorem Recorded.record : Record ⟨w.cluster.put id n' sent,
    w.wins ++ winsOf w.cluster (w.cluster.put id n' sent) id⟩ := by
  have won : winsOf w.cluster (w.cluster.put id n' sent) id =
      if n'.raft.soft.role = .leader ∧ n.raft.soft.role ≠ .leader then
        [⟨id,n'.raft.hard.currentTerm,n.raft.config.voters⟩] else [] := by
    simp [winsOf,call.found,putHere]
  rw [won]
  split
  · rename_i both
    exact Recorded.win inv call both.1 both.2
  · rename_i no
    rw [append_nil]
    exact Recorded.keep inv call no

end

variable [Bincode]

def Watched.step (w : Watched S) (e : Event) : Option (Watched S) :=
  (w.cluster.step e).map (fun next => ⟨next,w.wins ++ winsOf w.cluster next (actor e)⟩)

theorem callSafeWin {w : Watched S} (safe : WinsSafely w e) (core : CoreCall n.raft e r' actions out)
    (call : Call w.cluster (actor e) n r' (incoming e) n' sent)
    (leads : r'.soft.role = .leader) (was : n.raft.soft.role ≠ .leader) :
    SafeWin w.wins n r'.hard.currentTerm r'.votes ∧ n.raft.config.quorum ≤ r'.votes.card := by
  have found := call.found
  cases coreEffect core with
  | keep _ _ role =>
    rw [role] at leads
    exact absurd leads was
  | follow _ _ role =>
    rw [role] at leads
    cases leads
  | grant _ _ _ _ _ _ _ standing =>
    rcases standing with ⟨_,role,_⟩ | ⟨role,_⟩
    · rw [role] at leads
      cases leads
    · rw [role] at leads
      exact absurd leads was
  | campaign alone _ term _ votes role =>
    have single : n.raft.config.quorum ≤ 1 := by
      rcases role with candidate | ⟨_,single⟩
      · rw [candidate] at leads
        cases leads
      · exact single
    rw [term,votes,Finset.card_singleton]
    cases core with
    | tick => exact ⟨safe n found was single,single⟩
    | deliver => cases alone
    | propose led | readIndex led | proposeConfChange led => exact absurd led was
  | count _ _ cause candidate current term _ votes role =>
    have enough : n.raft.config.quorum ≤ r'.votes.card := by
      rcases role with still | ⟨_,enough⟩
      · rw [still] at leads
        cases leads
      · exact enough
    refine ⟨?_,enough⟩
    rw [votes] at enough
    rw [term,votes]
    cases e with
    | deliver env =>
      have counts := safe n found
      cases env with
      | mk =>
        cases cause
        exact counts candidate current enough
    | _ => cases cause

theorem recorded {w : Watched S} (inv : Record w) (ok : ChangeStep w e) (core : CoreCall n.raft e r' actions out)
    (call : Call w.cluster (actor e) n r' (incoming e) n' sent) : Recorded w (actor e) n n' sent := by
  have soft : n'.raft.soft = r'.soft := by rw [call.same]
  have hard : n'.raft.hard = r'.hard := by rw [call.same]
  obtain ⟨self,keeps⟩ := callStanding inv.ballots call (inv.self call.found)
  refine ⟨call.found,call.ballots inv.ballots,?_,?_,?_,?_,?_⟩
  · rw [soft,hard]
    exact self
  · rw [soft,hard]
    exact keeps
  · rw [hard]
    exact effectBehind (coreEffect core) (roomOf ok.room call.found core)
  · intro v x t granted
    have asked := call.answers inv.ballots granted
    rcases call.votedSplit inv.ballots (.inl granted) with (old | ⟨same,_⟩) | ⟨who,_,term,vote⟩
    · exact .inl old
    · obtain ⟨_,_,mem⟩ := asked
      exact absurd same.symm ((call.ballots inv.ballots).honest mem).2
    · rw [hard]
      exact .inr ⟨who,term,vote⟩
  · rw [soft,hard]
    intro leads was
    obtain ⟨safe,enough⟩ := callSafeWin ok.safe core call leads was
    have counted := call.counted inv.ballots (.inr ⟨leads,was⟩)
    have mine : n.raft.config.id = actor e := call.self inv.ballots
    refine ⟨⟨r'.votes,enough,fun v mem => ⟨safe.listed v mem,counted v mem⟩⟩,?_⟩
    intro x mem term other
    exact safe.overlap x mem term (by rw [mine]; exact other)

theorem recordStep {w w' : Watched S} (inv : Record w) (ok : ChangeStep w e)
    (step : w.step e = some w') : Record w' := by
  obtain ⟨_,one,eq⟩ := map_eq_some_iff.mp step
  subst eq
  have ballots := ballotsStep inv.ballots ok.room one
  have none : ∀ id, winsOf w.cluster w.cluster id = [] := by
    intro _
    unfold winsOf
    split
    · rename_i n n' before after
      cases some.inj (before.symm.trans after)
      exact if_neg (fun both => both.2 both.1)
    · rfl
  cases stepCases one with
  | call found received core posted next =>
    subst next
    exact Recorded.record inv (recorded inv ok core (callOf inv.ballots ok.room found received core posted))
  | refused _ _ _ next =>
    subst next
    rw [none,append_nil]
    exact inv
  | @request client target req asks next =>
    subst next
    have same := none (actor e)
    simp only [winsOf] at same ⊢
    rw [same,append_nil]
    refine inv.quiet ballots ?_
    intro _ mem
    cases mem_singleton.mp mem
    rfl
  | crash stops =>
    subst stops
    exact ok.calm.elim

theorem recordRun {w w' : Watched S} (inv : Record w) (ok : Execution.Admissible Watched.step ChangeStep w events)
    (done : run Watched.step w events = some w') : Record w' :=
  runInvariant (fun _ _ _ inv ok step => recordStep inv ok step) inv ok done

end

section
variable {S : Type} [RaftStorage S] [Bincode]

theorem winsKept {w w' : Watched S} (done : run Watched.step w events = some w') : ∀ x ∈ w.wins, x ∈ w'.wins := by
  refine runRelation (R := fun w w' : Watched S => ∀ x ∈ w.wins, x ∈ w'.wins)
    (fun _ _ mem => mem) (fun ab bc x mem => bc x (ab x mem)) ?_ done
  intro w e _ one x mem
  obtain ⟨_,_,eq⟩ := map_eq_some_iff.mp one
  subst eq
  exact mem_append_left _ mem

theorem watchedRun {c c' : Cluster S} (wins) (done : c.run events = some c') :
    ∃ more, run Watched.step ⟨c,wins⟩ events = some ⟨c',more⟩ := by
  induction events generalizing c wins with
  | nil =>
    cases some.inj done
    exact ⟨wins,rfl⟩
  | cons e _ ih =>
    obtain ⟨next,one,later⟩ := runCons done
    obtain ⟨more,ran⟩ := ih (wins ++ winsOf c next (actor e)) later
    refine ⟨more,?_⟩
    simp only [run,Watched.step,one,map_some,bind,bind]
    exact ran

end

theorem oneWinnerPerTerm {S : Type} [RaftStorage S] [LawfulRaftStorage S] [Bincode]
    {ids voters : List NodeId} {tuning : NodeId → Tuning} {storage : NodeId → S}
    {draw : NodeId → Nat} (clean : ∀ id, buffered (storage id) = durable (storage id))
    {first later : List Event} {c₁ c₂ : Cluster S}
    (run₁ : (Cluster.boot ids voters tuning storage draw).run first = some c₁) (run₂ : c₁.run later = some c₂)
    (ok : Execution.Admissible Watched.step ChangeStep
      ⟨Cluster.boot ids voters tuning storage draw,[]⟩ (first ++ later))
    {a b : NodeId} {term : Nat} (leadsA : leaderTerm c₁ a = some term)
    (leadsB : leaderTerm c₂ b = some term) : a = b := by
  obtain ⟨wins₁,watched₁⟩ := watchedRun [] run₁
  obtain ⟨_,watched₂⟩ := watchedRun wins₁ run₂
  obtain ⟨ok₁,ok₂⟩ := admissibleSplit watched₁ ok
  have inv₁ := recordRun (recordBoot clean) ok₁ watched₁
  have inv₂ := recordRun inv₁ ok₂ watched₂
  obtain ⟨n,foundA,roleA,termA⟩ := leaderTermSome leadsA
  obtain ⟨m,foundB,roleB,termB⟩ := leaderTermSome leadsB
  obtain ⟨x,memX,idX,timeX⟩ := inv₁.leads foundA roleA
  obtain ⟨y,memY,idY,timeY⟩ := inv₂.leads foundB roleB
  have same := inv₂.unique x (winsKept watched₂ x memX) y memY
    (timeX.trans (termA.trans (termB.symm.trans timeY.symm)))
  rw [← idX,← idY]
  exact same

def joining : Cluster MemStorage :=
  Cluster.boot [1,2,3,4] [1,2,3] (fun _ => ⟨100,100,25,64⟩) (fun _ => MemStorage.new) (fun _ => 0)

def firstLeader : List Event :=
  [.tick 1 100 0,.deliver ⟨1,2,.requestVote ⟨1,1,0,0⟩⟩ 0,.deliver ⟨2,1,.requestVoteResp ⟨1,true⟩⟩ 0]

/- The fourth node becomes a voter on the first two peers; the second then wins term 2
with the list of four. -/
def addFourth : List Event := firstLeader ++
  [.proposeConfChange 1 (.addVoter 4),
    .deliver ⟨1,2,.appendEntries ⟨1,1,0,0,[⟨1,encodeConfChange (.addVoter 4)⟩],0⟩⟩ 0,
    .deliver ⟨2,1,.appendEntriesResp ⟨1,true,1⟩⟩ 0,.tick 1 25 0,
    .deliver ⟨1,2,.appendEntries ⟨1,1,1,1,[],1⟩⟩ 0,.tick 2 100 0,
    .deliver ⟨2,3,.requestVote ⟨2,2,1,1⟩⟩ 0,.deliver ⟨2,1,.requestVote ⟨2,2,1,1⟩⟩ 0,
    .deliver ⟨3,2,.requestVoteResp ⟨2,true⟩⟩ 0,.deliver ⟨1,2,.requestVoteResp ⟨2,true⟩⟩ 0]

theorem oneWinnerAddFourth : ∃ c₁ c₂, joining.run addFourth = some c₁ ∧
    c₁.run [.tick 2 25 0] = some c₂ ∧ leaderTerm c₁ 2 = some 2 ∧ leaderTerm c₂ 2 = some 2 ∧ (2 : NodeId) = 2 := by
  obtain ⟨c₁,run₁,c₂,run₂,leads₁,leads₂⟩ : ∃ c₁ ∈ joining.run addFourth, ∃ c₂ ∈ c₁.run [.tick 2 25 0],
      leaderTerm c₁ 2 = some 2 ∧ leaderTerm c₂ 2 = some 2 := by decide +kernel
  exact ⟨c₁,c₂,run₁,run₂,leads₁,leads₂,oneWinnerPerTerm (fun _ => rfl) run₁ run₂ (by decide +kernel) leads₁ leads₂⟩

/- The fourth node is proposed but nobody has applied that yet. It campaigns with the
list of three, counts its own vote and wins the first leader's term with one voter. -/
def outsider : List Event := firstLeader ++
  [.proposeConfChange 1 (.addVoter 4),.tick 4 100 0,.deliver ⟨4,3,.requestVote ⟨1,4,0,0⟩⟩ 0,
    .deliver ⟨3,4,.requestVoteResp ⟨1,true⟩⟩ 0]

theorem outsiderLeadsToo : ∃ c, joining.run outsider = some c ∧ leaderTerm c 1 = some 1 ∧ leaderTerm c 4 = some 1 := by
  show ∃ c ∈ joining.run outsider, leaderTerm c 1 = some 1 ∧ leaderTerm c 4 = some 1
  decide +kernel

end NoeDB.RaftMembership
