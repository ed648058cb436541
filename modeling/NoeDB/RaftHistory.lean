import NoeDB.RaftSafety

/-! What later steps of a run keep: committed entries in the logs of later leaders, and
applied commands. A read barrier whose entry its leader commits rests on them. -/
namespace NoeDB.Replication
section
variable {ν E : Type} {term : E → Nat} {members : List ν} {s s' : State ν E} [DecidableEq ν]

theorem stepAcks (step : Step term members s s') (v t) :
    s.cur v ≤ s'.cur v ∧ (s'.reach v t ≤ s.reach v t ∨ s.cur v ≤ t) := by
  cases step with
  | @advance w u up =>
    refine ⟨?_,.inl le_rfl⟩
    by_cases same : v = w
    · subst same
      simpa [State.advance] using up
    · simp [State.advance,same]
  | @ack w u i now =>
    refine ⟨le_rfl,?_⟩
    rcases updatedCases s.reach w u (max (s.reach w u) i) v t with old | ⟨rfl,rfl,_⟩
    · exact .inl old.le
    · exact .inr now.le
  | _ => exact ⟨le_rfl,.inl le_rfl⟩

theorem stepsAcks (steps : Steps term members s s') (v t) :
    s.cur v ≤ s'.cur v ∧ (s'.reach v t ≤ s.reach v t ∨ s.cur v ≤ t) := by
  induction steps with
  | refl => exact ⟨le_rfl,.inl le_rfl⟩
  | tail _ one ih =>
    have last := stepAcks one v t
    omega

/- A leader that has been replaced settles nothing more: who answers it has not moved on. -/
theorem replacedSettles (inv : Sound term members s) (steps : Steps term members s s') (settled : Settled term members s' t k)
    (before : t ≤ t') (opened : s.led t' ≠ []) (beyond : (s.led t').length ≤ k) (above : t' < u) : s.led u = [] := by
  by_contra newer
  obtain ⟨j,up,⟨e,found,stamp⟩,group,majority,all⟩ := settled
  obtain ⟨_,also,gone⟩ := inv.elected (by omega) newer
  have reached : ∀ v ∈ group, j < s.reach v t ∨ s.cur v ≤ t := by
    intro v mem
    have answered := all v mem
    have acked := stepsAcks steps v t
    omega
  obtain ⟨v,_,left,right⟩ := Majority.meet majority also
  have inside : j < (s.led t).length := by
    have moved := gone v right
    have held := (reached v left).resolve_right (by omega)
    exact lt_of_lt_of_le held (inv.inside v t)
  obtain ⟨_,grown⟩ := (stepsLater steps).led t
  rw [← grown,List.getElem?_append_left inside] at found
  have front : (s.led t).take (j+1) <+: s.led t' := by
    rcases lt_or_eq_of_le before with less | rfl
    · exact inv.complete less opened ⟨⟨e,found,stamp⟩,group,majority,reached⟩
    · exact List.take_prefix _ _
  have size := front.length_le
  rw [List.length_take] at size
  omega

end
end NoeDB.Replication

namespace NoeDB.RaftHistory
open RaftTypes RaftRuntime RaftCluster RaftSimulation RaftSafety Replication Cluster RaftTruth RaftProgress

section
variable [Bincode] {ids voters : List NodeId} {tuning : NodeId → Tuning} {draw : NodeId → Nat} {first later : List Event}
  {c₁ c₂ : Cluster MemStorage} {id other leader : NodeId} {n m m' : MemNode}
variable (peers : ∀ id ∈ ids, id ∈ voters)
  (run₁ : (boot ids voters tuning (fun _ => MemStorage.new) draw).run first = some c₁) (run₂ : c₁.run later = some c₂)
  (ok : Execution.Admissible Cluster.step SafeStep (boot ids voters tuning (fun _ => MemStorage.new) draw) (first ++ later))
  (found : c₁.nodes id = some n)
include peers run₁ run₂ ok found

theorem committedLater : ∃ s₁ s₂ t, Sim voters c₁ s₁ ∧ Steps LogEntry.term voters s₁ s₂ ∧ Sim voters c₂ s₂ ∧
    t ≤ n.raft.hard.currentTerm ∧ Settled LogEntry.term voters s₁ t n.raft.hard.commitIndex ∧
      n.raft.log.entries.take (n.raft.hard.commitIndex+1) = (s₂.led t).take (n.raft.hard.commitIndex+1) := by
  obtain ⟨ok₁,ok₂⟩ := Execution.admissibleSplit run₁ ok
  obtain ⟨s₁,_,sim₁⟩ := simRun (simBoot peers) ok₁ run₁
  obtain ⟨s₂,steps,sim₂⟩ := simRun sim₁ ok₂ run₂
  obtain ⟨t,up,settled,same⟩ := (sim₁.nodes found).committed
  obtain ⟨_,grown⟩ := (stepsLater steps).led t
  refine ⟨s₁,s₂,t,sim₁,steps,sim₂,up,settled,?_⟩
  rw [same,← grown,List.take_append_of_le_length settled.length]

/- Leader completeness. -/
theorem leaderHoldsCommitted (there : c₂.nodes leader = some m)
    (leads : m.raft.soft.role = .leader) (since : n.raft.hard.currentTerm ≤ m.raft.hard.currentTerm) :
    n.raft.log.entries.take (n.raft.hard.commitIndex+1) <+: m.raft.log.entries := by
  obtain ⟨_,_,_,_,steps,sim,up,settled,same⟩ := committedLater peers run₁ run₂ ok found
  have written := (sim.logs.nodes there).written leads
  rw [same,← written]
  refine (settled.later (stepsLater steps)).front sim.sound (up.trans since) ?_
  rw [written]
  exact m.raft.log.nonempty

theorem appliedAcrossTime (there : c₂.nodes other = some m) : n.applied <+: m.applied ∨ m.applied <+: n.applied := by
  obtain ⟨_,_,_,sim₁,steps,sim₂,_,settled,same⟩ := committedLater peers run₁ run₂ ok found
  obtain ⟨_,_,settled',same'⟩ := (sim₂.nodes there).committed
  rw [(sim₁.nodes found).applied,(sim₂.nodes there).applied,same,same']
  exact (settledAgree sim₂.sound (settled.later (stepsLater steps)) settled').imp commandsPrefix commandsPrefix

/- `read_index` appends its entry right behind the last index of `m`. -/
theorem barrierCoversApplied (there : c₁.nodes leader = some m)
    (leads : m.raft.soft.role = .leader) (after : c₂.nodes leader = some m')
    (still : m'.raft.hard.currentTerm = m.raft.hard.currentTerm)
    (confirmed : m.raft.log.lastIndex < m'.raft.hard.commitIndex) : n.applied <+: m'.applied := by
  obtain ⟨s,_,t,sim₁,steps,sim₂,_,settled,same⟩ := committedLater peers run₁ run₂ ok found
  obtain ⟨_,up,settled',same'⟩ := (sim₂.nodes after).committed
  have written := (sim₁.logs.nodes there).written leads
  have size : (s.led m.raft.hard.currentTerm).length = m.raft.log.lastIndex+1 := by
    rw [written]
    exact m.raft.log.lastIndexSucc.symm
  have opened : s.led m.raft.hard.currentTerm ≠ [] := written ▸ m.raft.log.nonempty
  have before : t ≤ m.raft.hard.currentTerm := not_lt.mp fun newer =>
    settled.opened (replacedSettles sim₁.sound steps settled' (still ▸ up) opened (by omega) newer)
  have front := (settled.front sim₁.sound before opened).length_le
  have inside := settled.length
  have inside' := settled'.length
  rw [List.length_take] at front
  rw [(sim₁.nodes found).applied,(sim₂.nodes after).applied,same,same']
  refine commandsPrefix ?_
  rcases settledAgree sim₂.sound (settled.later (stepsLater steps)) settled' with shorter | longer
  · exact shorter
  · have most := longer.length_le
    rw [List.length_take,List.length_take] at most
    omega

end

def barrier : List Event := [.readIndex 1 7,.deliver ⟨1,2,.appendEntries ⟨1,1,2,1,[⟨1,[]⟩],2⟩⟩ 0,
  .deliver ⟨2,1,.appendEntriesResp ⟨1,true,3⟩⟩ 0]

theorem barrierSafe : Execution.Admissible Cluster.step SafeStep threePeers (commitTwo ++ barrier) := by decide +kernel

theorem barrierRuns : ∃ c₁ ∈ threePeers.run commitTwo, ∃ c₂ ∈ c₁.run barrier, ∃ n ∈ c₁.nodes 2,
    ∃ m ∈ c₁.nodes 1, ∃ m' ∈ c₂.nodes 1, m.raft.soft.role = .leader ∧ m'.raft.soft.role = .leader ∧
      n.raft.hard.currentTerm ≤ m'.raft.hard.currentTerm ∧ m'.raft.hard.currentTerm = m.raft.hard.currentTerm ∧
        m.raft.log.lastIndex < m'.raft.hard.commitIndex := by decide +kernel

theorem leaderHoldsTwo : ∃ c₁ c₂ n m, threePeers.run commitTwo = some c₁ ∧ c₁.run barrier = some c₂ ∧
    c₁.nodes 2 = some n ∧ c₂.nodes 1 = some m ∧ n.raft.log.entries.take (n.raft.hard.commitIndex+1) <+: m.raft.log.entries := by
  obtain ⟨c₁,run₁,c₂,run₂,n,found,_,_,m,there,_,leads,since,_⟩ := barrierRuns
  exact ⟨c₁,c₂,n,m,run₁,run₂,found,there,leaderHoldsCommitted (by decide) run₁ run₂ barrierSafe found there leads since⟩

theorem appliedAcrossTwo : ∃ c₁ c₂ n m, threePeers.run commitTwo = some c₁ ∧ c₁.run barrier = some c₂ ∧
    c₁.nodes 2 = some n ∧ c₂.nodes 1 = some m ∧ (n.applied <+: m.applied ∨ m.applied <+: n.applied) := by
  obtain ⟨c₁,run₁,c₂,run₂,n,found,_,_,m,there,_⟩ := barrierRuns
  exact ⟨c₁,c₂,n,m,run₁,run₂,found,there,appliedAcrossTime (by decide) run₁ run₂ barrierSafe found there⟩

theorem barrierCoversTwo : ∃ c₁ c₂ n m, threePeers.run commitTwo = some c₁ ∧ c₁.run barrier = some c₂ ∧
    c₁.nodes 2 = some n ∧ c₂.nodes 1 = some m ∧ n.applied <+: m.applied := by
  obtain ⟨c₁,run₁,c₂,run₂,n,found,m,there,m',after,leads,_,_,still,confirmed⟩ := barrierRuns
  exact ⟨c₁,c₂,n,m',run₁,run₂,found,after,
    barrierCoversApplied (by decide) run₁ run₂ barrierSafe found there leads after still confirmed⟩

end NoeDB.RaftHistory
