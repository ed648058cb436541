import NoeDB.RaftCluster
import NoeDB.RaftPlain

/-! What one step of the cluster can do, said once: a call of the core on the
acting node whose actions are then executed, a refused call, a client's request
or a restart. -/
namespace NoeDB.RaftSteps
open RaftTypes RaftCore RaftRuntime RaftCluster RaftEffects RaftDurability RaftPlain Option RaftNode Cluster

def actor : Event → NodeId
  | .tick id _ _ => id
  | .deliver env _ => env.target
  | .propose id _ => id
  | .readIndex id _ => id
  | .proposeConfChange id _ => id
  | .request client _ _ => client
  | .crash id _ => id

def incoming : Event → Option (NodeId × RpcMessage)
  | .deliver env _ => some (env.sender,env.msg)
  | _ => none

theorem putHere {S : Type} (c : Cluster S) (id n out) : (c.put id n out).nodes id = some n := by
  simp [put]

theorem putElse {S : Type} (c : Cluster S) {id} (n out) (other : who ≠ id) :
    (c.put id n out).nodes who = c.nodes who := by
  simp [put,other]

section
variable {S : Type} [RaftStorage S]

theorem deliveredCases (n : RaftNode S) (actions) :
    (delivered (n.exec actions).2 = sendsOf actions ∧ (n.exec actions).2 = .ok (sendsOf actions)) ∨
    (delivered (n.exec actions).2 = [] ∧ ∃ failure, (n.exec actions).2 = .error failure) := by
  cases res : (n.exec actions).2 with
  | ok =>
    cases execSent n actions res
    exact .inl ⟨rfl,rfl⟩
  | error failure => exact .inr ⟨rfl,failure,rfl⟩

theorem answeredCases (n : RaftNode S) (actions sender resp) :
    (answered sender ((n.exec actions).2.map (fun outbound => (resp,outbound))) =
        outputs sender resp actions ∧ (n.exec actions).2 = .ok (sendsOf actions)) ∨
    (answered sender ((n.exec actions).2.map (fun outbound => (resp,outbound))) = [] ∧
      ∃ failure, (n.exec actions).2 = .error failure) := by
  cases res : (n.exec actions).2 with
  | ok =>
    cases execSent n actions res
    refine .inl ⟨?_,rfl⟩
    cases resp <;> rfl
  | error failure => exact .inr ⟨rfl,failure,rfl⟩

end

def CrashFree : Event → Prop
  | .crash _ _ => False
  | _ => True

instance (e) : Decidable (CrashFree e) := by cases e <;> unfold CrashFree <;> infer_instance

section
variable [Bincode]

inductive CoreCall (r : Raft) : Event → Raft → List Action → Outbound → Prop where
  | tick {id ms draw} : CoreCall r (.tick id ms draw) (r.tick ms draw).1 (r.tick ms draw).2
      (sendsOf (r.tick ms draw).2)
  | deliver {env draw} : CoreCall r (.deliver env draw)
      (RaftNode.dispatch r env.sender env.msg draw).1
      (RaftNode.dispatch r env.sender env.msg draw).2.2
      (outputs env.sender (RaftNode.dispatch r env.sender env.msg draw).2.1
        (RaftNode.dispatch r env.sender env.msg draw).2.2)
  | propose {id cmd} (leads : r.soft.role = .leader) :
      CoreCall r (.propose id cmd) (r.appendOwn cmd)
        ([r.persistOwn cmd] ++ (r.appendOwn cmd).broadcastAppend)
        (sendsOf ([r.persistOwn cmd] ++ (r.appendOwn cmd).broadcastAppend))
  | readIndex {id readId} (leads : r.soft.role = .leader) :
      CoreCall r (.readIndex id readId)
        ((r.appendOwn []).pushRead readId (r.appendOwn []).log.lastIndex)
        ([r.persistOwn []] ++
          ((r.appendOwn []).pushRead readId (r.appendOwn []).log.lastIndex).broadcastAppend)
        (sendsOf ([r.persistOwn []] ++
          ((r.appendOwn []).pushRead readId (r.appendOwn []).log.lastIndex).broadcastAppend))
  | proposeConfChange {id cc} (leads : r.soft.role = .leader) :
      CoreCall r (.proposeConfChange id cc) (r.appendOwn (encodeConfChange cc))
        ([r.persistOwn (encodeConfChange cc)] ++ (r.appendOwn (encodeConfChange cc)).broadcastAppend)
        (sendsOf ([r.persistOwn (encodeConfChange cc)] ++
          (r.appendOwn (encodeConfChange cc)).broadcastAppend))

variable {S : Type} [RaftStorage S]

inductive StepCase (c : Cluster S) (e : Event) (c' : Cluster S) : Prop where
  | call {n : RaftNode S} {r' : Raft} {actions : List Action} {out sent : Outbound}
      (found : c.nodes (actor e) = some n)
      (received : ∀ s m, incoming e = some (s,m) → ⟨s,actor e,m⟩ ∈ c.net)
      (core : CoreCall n.raft e r' actions out)
      (posted : (sent = out ∧ ({n with raft := r'}.exec actions).2 = .ok (sendsOf actions)) ∨
        (sent = [] ∧ ∃ failure, ({n with raft := r'}.exec actions).2 = .error failure))
      (next : c' = c.put (actor e) ({n with raft := r'}.exec actions).1 sent)
  | refused {n : RaftNode S} (found : c.nodes (actor e) = some n)
      (follows : n.raft.soft.role ≠ .leader) (alone : incoming e = none) (next : c' = c)
  | request {client target req} (asks : e = .request client target req)
      (next : c' = {c with net := c.net ++ [⟨client,target,.readIndex req⟩]})
  | crash {id draw} {n reopened : RaftNode S} (stops : e = .crash id draw)
      (found : c.nodes id = some n)
      (opened : RaftNode.openNode n.raft.config (RaftStorage.reopen n.storage) draw = .ok reopened)
      (next : c' = c.put id reopened [])

theorem stepCases {c c' : Cluster S} {e} (step : c.step e = some c') : StepCase c e c' := by
  cases e with
  | tick =>
    simp only [Cluster.step,bind,bind_eq_some_iff] at step
    obtain ⟨n,found,eq⟩ := step
    exact .call found (fun s m h => by cases h) .tick (deliveredCases _ _) (some.inj eq).symm
  | deliver =>
    simp only [Cluster.step] at step
    split at step
    · rename_i mem
      simp only [bind,bind_eq_some_iff] at step
      obtain ⟨n,found,eq⟩ := step
      refine .call found ?_ .deliver (answeredCases _ _ _ _) (some.inj eq).symm
      intro s m h
      cases h
      exact mem
    · cases step
  | propose | readIndex | proposeConfChange =>
    simp only [Cluster.step,bind,bind_eq_some_iff] at step
    obtain ⟨n,found,eq⟩ := step
    by_cases leads : n.raft.soft.role = .leader
    · simp only [propose,Raft.propose,readIndex,Raft.readIndex,proposeConfChange,Raft.proposeConfChange,leads,ne_eq,
        not_true_eq_false,if_false,execResult] at eq
      exact .call found (fun s m h => by cases h) (by constructor; exact leads) (deliveredCases _ _) (some.inj eq).symm
    · simp only [propose,Raft.propose,readIndex,Raft.readIndex,proposeConfChange,Raft.proposeConfChange,ne_eq,
        if_pos leads,execResult] at eq
      exact .refused found leads rfl ((some.inj eq).symm.trans (by simp [put,posted,delivered,← found]))
  | request => exact .request rfl (some.inj step).symm
  | crash =>
    simp only [Cluster.step,bind,bind_eq_some_iff] at step
    obtain ⟨n,found,eq⟩ := step
    split at eq
    · rename_i opened
      exact .crash rfl found opened (some.inj eq).symm
    · cases eq

theorem stepNodes {c c' : Cluster S} (step : c.step e = some c') {id}
    (found : c'.nodes id = some n') : ∃ n, c.nodes id = some n := by
  have put : ∀ {who n m sent}, c.nodes who = some n → c' = c.put who m sent → ∃ n, c.nodes id = some n := by
    intro who n m _ there next
    by_cases same : id = who
    · exact ⟨n,same ▸ there⟩
    · rw [next] at found
      exact ⟨n',by simpa [put,same] using found⟩
  cases stepCases step with
  | call there _ _ _ next | crash _ there _ next => exact put there next
  | refused _ _ _ next => exact ⟨n',next ▸ found⟩
  | request _ next =>
    rw [next] at found
    exact ⟨n',found⟩

end

section
variable [Bincode]

theorem coreEffect (core : CoreCall r e r' actions out) :
    VoteEffect r r' (incoming e) out (.persistHardState ∈ actions) := by
  cases core with
  | tick => exact tickEffect r _ _
  | deliver => exact dispatchEffect r _ _ _
  | propose | proposeConfChange => exact ownEntryEffect r _ _ rfl
  | readIndex =>
    refine .keep rfl rfl rfl rfl ?_
    exact quietNil.append (broadcastQuiet _)

theorem coreId (core : CoreCall r e r' actions out) : r'.config.id = r.config.id := by
  cases core with
  | tick => exact tickId r _ _
  | deliver => exact dispatchId r _ _ _
  | propose => rfl
  | readIndex => rfl
  | proposeConfChange => rfl

def PlainEvent : Event → Prop
  | .propose _ cmd => decodeConfChange cmd = none
  | .proposeConfChange _ _ => False
  | _ => True

instance (e) : Decidable (PlainEvent e) := by cases e <;> unfold PlainEvent <;> infer_instance

theorem corePlain (core : CoreCall r e r' actions out)
    (plain : PlainLog r.log) (message : ∀ s m, incoming e = some (s,m) → PlainMsg m)
    (event : PlainEvent e) : PlainEffect r r' out ∧ Covers PlainEntry actions := by
  cases core with
  | tick => exact ⟨tickPlain plain _ _,(tickBare r _ _).covers fillerPlain⟩
  | deliver =>
    have plainMsg := message _ _ rfl
    exact ⟨dispatchPlain plain _ _ plainMsg,dispatchCovers plain _ _ plainMsg⟩
  | propose =>
    have log := ownEntryPlain plain event
    refine ⟨⟨rfl,rfl,log,?_⟩,coversAppend ⟨fillerPlain,?_⟩ ((broadcastBare _).covers fillerPlain)⟩
    · rw [sendsOfAppend]
      exact plainOutNil.append (broadcastPlain log)
    · intro i es mem e written
      cases List.mem_singleton.mp mem
      cases List.mem_singleton.mp written
      exact event
  | readIndex =>
    have log := ownEntryPlain plain decodeEmpty
    refine ⟨⟨rfl,rfl,log,?_⟩,coversAppend ⟨fillerPlain,?_⟩ ((broadcastBare _).covers fillerPlain)⟩
    · rw [sendsOfAppend]
      exact plainOutNil.append (broadcastPlain (r := (r.appendOwn []).pushRead _ (r.appendOwn []).log.lastIndex) log)
    · intro i _ mem e written
      cases List.mem_singleton.mp mem
      cases List.mem_singleton.mp written
      exact decodeEmpty
  | proposeConfChange => cases event

end

end NoeDB.RaftSteps
