import NoeDB.RaftLogMatching

/-! When an acknowledgement is true. A success answer names the follower's last index;
it is true where the whole log of the follower, after the request, is a front part of
the leader's. Here is what a delivered message must meet for that, and what an
accepted request then does to the log. -/
namespace NoeDB.RaftTruth
open RaftTypes RaftCore RaftRuntime RaftCluster RaftDurability RaftPlain List
open RaftReplication RaftLogMatching TermLedger

theorem replicasCount (r : Raft) (k peers) :
    r.replicas k peers = 1 + peers.countP (fun p => p ≠ r.config.id ∧ r.matched k p = true) := by
  have fold : ∀ start, peers.foldl (fun count peer => if peer = r.config.id then count
      else if r.matched k peer then count + 1 else count) start =
      start + peers.countP (fun p => p ≠ r.config.id ∧ r.matched k p = true) := by
    induction peers with
    | nil => simp
    | cons v _ ih =>
      intro _
      rw [foldl_cons,ih,countP_cons]
      by_cases self : v = r.config.id
      · simp [self]
      · by_cases held : r.matched k v = true
        · simp [self,held]
          omega
        · simp [self,held]
  exact fold 1

theorem quorumMajority {r : Raft} {k voters} (list : r.config.voters = voters)
    (joint : r.jointConfig = none) (member : r.config.id ∈ voters)
    (quorum : r.hasQuorumForIndex k = true) : ∃ group, Majority.Holds voters group ∧
      ∀ v ∈ group, v = r.config.id ∨ r.matched k v = true := by
  have first := Majority.countFirst member (r.matched k)
  simp only [Raft.hasQuorumForIndex,joint,list,ge_iff_le,decide_eq_true_eq,replicasCount, RaftConfig.quorum] at quorum
  refine ⟨_,Majority.ofCount (p := fun v => v = r.config.id ∨ r.matched k v = true) (by omega),?_⟩
  intro v mem
  simp only [mem_toFinset,mem_filter,decide_eq_true_eq] at mem
  exact mem.2

/- An accepted request leaves nothing in the follower's log that was not compared with
the leader's, and takes nothing away that the leader holds too: a request without
entries ends where the log ends, or the log ends inside the leader's term; one whose
entries the log already holds reaches to the log's end. -/
def Sincere (log : RaftLog) (req : AppendEntriesReq) : Prop :=
  if req.entries = [] then
    log.lastIndex ≤ req.prevLogIndex ∨ log.termAt log.lastIndex = req.term
  else
    log.entries.take (req.prevLogIndex+1+req.entries.length) =
        log.entries.take (req.prevLogIndex+1) ++ req.entries →
      log.lastIndex ≤ req.prevLogIndex + req.entries.length

instance (log req) : Decidable (Sincere log req) := by unfold Sincere; infer_instance

def Truthful (r : Raft) : RpcMessage → Prop
  | .appendEntries req => r.hard.currentTerm ≤ req.term →
      r.log.termAt req.prevLogIndex = req.prevLogTerm → Sincere r.log req
  | .appendEntriesResp resp => r.soft.role = .leader → resp.success = true →
      resp.term ≤ r.hard.currentTerm → resp.term = r.hard.currentTerm
  | _ => True

instance (r) : (m : RpcMessage) → Decidable (Truthful r m)
  | .appendEntries _ => inferInstanceAs (Decidable (_ → _ → Sincere _ _))
  | .appendEntriesResp _ => inferInstanceAs (Decidable (_ → _ → _ → _ = _))
  | .requestVote _ | .requestVoteResp _ | .installSnapshot _ | .installSnapshotResp _ | .readIndex _
  | .readIndexResp _ => isTrue trivial

def TruthfulStep (c : Cluster MemStorage) : Event → Prop
  | .deliver env _ => ∀ n ∈ c.nodes env.target, Truthful n.raft env.msg
  | _ => True

instance (c) : (e : Event) → Decidable (TruthfulStep c e)
  | .deliver .. => inferInstanceAs (Decidable (∀ _ ∈ _, Truthful _ _))
  | .tick .. | .propose .. | .readIndex .. | .proposeConfChange .. | .request .. | .crash .. => isTrue trivial

@[mk_iff]
structure SafeStep [Bincode] (c : Cluster MemStorage) (e : Event) : Prop where
  log : LogStep c e
  truthful : TruthfulStep c e

instance [Bincode] (c e) : Decidable (SafeStep c e) := decidable_of_iff' _ (safeStep_iff c e)

def spliced (log : RaftLog) (req : AppendEntriesReq) : List LogEntry :=
  if req.entries = [] then log.entries else log.entries.take (req.prevLogIndex+1) ++ req.entries

section
variable {led : Ledger} {log : RaftLog} {req : AppendEntriesReq}
  (coherent : Coherent LogEntry.term led)
  (positive : ∀ {t j e}, (led t)[j]? = some e → 0 < j → 0 < e.term)
  (own : Consistent LogEntry.term led log.entries)
  (prev : ∃ e, (led req.term)[req.prevLogIndex]? = some e ∧ e.term = req.prevLogTerm)
  (entries : req.entries <+: (led req.term).drop (req.prevLogIndex+1))
  (fits : log.termAt req.prevLogIndex = req.prevLogTerm) (sincere : Sincere log req)
include coherent positive own prev entries fits sincere

theorem splicedFront : spliced log req <+: led req.term := by
  obtain ⟨e,found,stamp⟩ := prev
  have length := log.lastIndexSucc
  unfold spliced
  split
  · rename_i empty
    have last : ∃ x, log.entries[log.lastIndex]? = some x := ⟨_,List.getElem?_eq_getElem (by omega)⟩
    obtain ⟨x,here⟩ := last
    have whole : log.entries.take (log.lastIndex+1) = log.entries := by
      rw [length,take_length]
    simp only [Sincere,if_pos empty] at sincere
    rcases sincere with _ | inside
    · have reaches : log.lastIndex = req.prevLogIndex := by
        by_contra differs
        have missing : log.entries.length ≤ req.prevLogIndex := by omega
        have zero := RaftLog.termAtBeyond missing
        have stamped := positive found (by omega)
        omega
      rw [← whole]
      rw [reaches] at here ⊢
      rw [matching own (coherent req.term) here found ((RaftLog.termAtOf here).symm.trans (fits.trans stamp.symm))]
      exact List.take_prefix _ _
    · have term : x.term = req.term := (RaftLog.termAtOf here).symm.trans inside
      rw [← whole,own _ x here,term]
      exact List.take_prefix _ _
  · rename_i some
    rw [splicePrefix coherent positive own some (fun _ => ⟨e,found,stamp,entries⟩) fits]
    exact List.take_prefix _ _

theorem splicedKeeps (mine : p <+: log.entries) (theirs : p <+: led req.term) : p <+: spliced log req := by
  obtain ⟨e,found,stamp⟩ := prev
  have length := log.lastIndexSucc
  unfold spliced
  split
  · exact mine
  · rename_i some
    have splice := splicePrefix coherent positive own some (fun _ => ⟨e,found,stamp,entries⟩) fits
    rw [splice]
    rcases Nat.lt_or_ge (req.prevLogIndex+1+req.entries.length) p.length with _ | short
    · simp only [Sincere,if_neg some] at sincere
      have cut : ∀ {l : List LogEntry}, p <+: l → l.take (req.prevLogIndex+1+req.entries.length) =
          p.take (req.prevLogIndex+1+req.entries.length) := by
        rintro l ⟨_,eq⟩
        rw [← eq,take_append_of_le_length (by omega)]
      have held := sincere (by rw [splice,cut mine,cut theirs])
      have bound := mine.length_le
      omega
    · rw [List.prefix_iff_eq_take.mp theirs]
      exact List.take_prefix_take_left short

end

theorem takeBetween (log) (le : a ≤ b) :
    (log.entries.take (b+1)).drop 1 = (log.entries.take (a+1)).drop 1 ++ between log a b := by
  have split : log.entries.take (b+1) = log.entries.take (a+1) ++ (log.entries.drop (a+1)).take (b-a) := by
    rw [← take_add]
    congr 1
    omega
  have some : 1 ≤ (log.entries.take (a+1)).length := by
    have := log.lengthPos
    rw [length_take]
    omega
  rw [split,drop_append_of_le_length some,between]

end NoeDB.RaftTruth
