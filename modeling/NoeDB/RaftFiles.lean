import NoeDB.RaftCluster

/-! Crashes of a node over the file store. A sync replaces the hard state, the log and the
snapshot one after the other, so that the next process may find the new hard state beside
the old log. -/
namespace NoeDB.RaftFiles
open RaftTypes RaftCore RaftRuntime Execution List FileStorage

abbrev FileNode := RaftNode FileStorage

inductive Call where
  | tick (ms draw : Nat)
  | step (sender : NodeId) (msg : RpcMessage) (draw : Nat)
  | propose (cmd : Command)
  | readIndex (readId : Nat)
  | proposeConfChange (cc : ConfChange)
  | reopen (draw : Nat)

def reopened (config : RaftConfig) (disk : Disk) (outcomes : List (Option String)) (draw : Nat) : FileNode :=
  ⟨Raft.new config (FileStorage.reload disk).hard (FileStorage.reload disk).log draw,.openDir disk outcomes,[]⟩

theorem openFiles (config disk outcomes draw) :
    RaftNode.openNode config (openDir disk outcomes) draw = .ok (reopened config disk outcomes draw) := rfl

/- The files as the writes of a sync leave them one by one. -/
def crashPoints (s : FileStorage) : List Disk :=
  if s.dirty then (range (s.mem.records.length+1)).map fun k => (s.mem.records.take k).foldl (fun disk write => write disk) s.disk
  else [s.disk]

def unsynced (n : FileNode) (actions : List Action) : FileNode := actions.foldl (fun n action => (n.execOne action).1) n

section
variable [Bincode]

def core (r : Raft) : Call → Option (Raft × List Action)
  | .tick ms draw => some (r.tick ms draw)
  | .step sender msg draw => some ((RaftNode.dispatch r sender msg draw).1,(RaftNode.dispatch r sender msg draw).2.2)
  | .propose cmd => (r.propose cmd : Except Error _).toOption
  | .readIndex readId => (r.readIndex readId : Except Error _).toOption
  | .proposeConfChange cc => (r.proposeConfChange cc : Except Error _).toOption
  | .reopen _ => none

def next (n : FileNode) : Call → FileNode
  | .tick ms draw => (n.tickMs ms draw).1
  | .step sender msg draw => (n.step sender msg draw).1
  | .propose cmd => (n.propose cmd).1
  | .readIndex readId => (n.readIndex readId).1
  | .proposeConfChange cc => (n.proposeConfChange cc).1
  | .reopen draw => reopened n.raft.config n.storage.disk n.storage.outcomes draw

def crashes (n : FileNode) (call : Call) : List Disk :=
  match core n.raft call with
  | some (raft,actions) => crashPoints (unsynced {n with raft} actions).storage
  | none => [n.storage.disk]

def CrashSafe (n : FileNode) (call : Call) : Prop :=
  ∀ disk ∈ crashes n call, ∀ outcomes draw, ∃ m,
    RaftNode.openNode n.raft.config (FileStorage.openDir disk outcomes) draw = .ok m ∧
    m.raft.hard.lastApplied ≤ m.raft.hard.commitIndex ∧ m.raft.hard.commitIndex ≤ m.raft.log.lastIndex

def Covered (n : FileNode) (call : Call) : Prop :=
  match core n.raft call with
  | some (raft,actions) =>
      let s := (unsynced {n with raft} actions).storage
      s.dirty = true → s.mem.hard.lastApplied ≤ s.mem.hard.commitIndex ∧
        s.mem.hard.commitIndex ≤ (s.disk.log.getD .new).lastIndex ∧ s.mem.hard.commitIndex ≤ s.mem.log.lastIndex
  | none => True

end

def Ordered (disk : Disk) : Prop :=
  (FileStorage.reload disk).hard.lastApplied ≤ (FileStorage.reload disk).hard.commitIndex ∧
    (FileStorage.reload disk).hard.commitIndex ≤ (FileStorage.reload disk).log.lastIndex

theorem pointsOrdered (s) : (∀ disk ∈ crashPoints s, Ordered disk) ↔
    Ordered s.disk ∧ (s.dirty = true → s.mem.hard.lastApplied ≤ s.mem.hard.commitIndex ∧
      s.mem.hard.commitIndex ≤ (s.disk.log.getD .new).lastIndex ∧ s.mem.hard.commitIndex ≤ s.mem.log.lastIndex) := by
  unfold crashPoints
  cases s.dirty with
  | false => simp
  | true =>
    cases kept : s.mem.snapshot <;>
      simp only [MemStorage.records,kept,append_nil,range_succ,length_cons,length_nil,length_append,range_zero] <;> simp [Ordered,reload] <;> grind

theorem writtenPoint (disk outcomes writes) :
    ∃ k ≤ writes.length, (writeRecords disk outcomes writes).1 = (writes.take k).foldl (fun disk write => write disk) disk := by
  induction writes generalizing disk outcomes with
  | nil => exact ⟨0,le_refl _,by simp [writeRecords]⟩
  | cons write _ ih =>
    rcases outcomes with _ | ⟨_ | _,rest⟩
    · obtain ⟨k,bound,same⟩ := ih (write disk) []
      exact ⟨k+1,Nat.succ_le_succ bound,same⟩
    · obtain ⟨k,bound,same⟩ := ih (write disk) rest
      exact ⟨k+1,Nat.succ_le_succ bound,same⟩
    · exact ⟨0,Nat.zero_le _,rfl⟩

theorem syncPoint (s) : s.sync.1.disk ∈ crashPoints s := by
  unfold sync crashPoints
  cases dirty : s.dirty with
  | false => simp
  | true =>
    obtain ⟨k,bound,same⟩ := writtenPoint s.disk s.outcomes s.mem.records
    have written : (writeRecords s.disk s.outcomes s.mem.records).1 ∈ (range (s.mem.records.length+1)).map fun k =>
        (s.mem.records.take k).foldl (fun disk write => write disk) s.disk :=
      mem_map.mpr ⟨k,mem_range.mpr (Nat.lt_succ_of_le bound),same.symm⟩
    simp only [Bool.not_true,Bool.false_eq_true,if_false,if_true]
    split <;> exact written

theorem unsyncedDisk (n actions) : (unsynced n actions).storage.disk = n.storage.disk := by
  induction actions generalizing n with
  | nil => rfl
  | cons action _ ih =>
    rw [unsynced,foldl_cons]
    refine (ih _).trans ?_
    cases action <;> rfl

theorem fileExec (n outbound actions) :
    (n.execLoop outbound actions).1.storage = (unsynced n actions).storage.sync.1 := by
  induction actions generalizing n outbound with
  | nil => rfl
  | cons action _ ih => cases action <;> exact ih _ _

section
variable [Bincode]

theorem nextPoint (n call) : (next n call).storage.disk ∈ crashes n call := by
  have result : ∀ out : Except Error (Raft × List Action), (n.execResult out).1.storage.disk ∈
      match out.toOption with
      | some (raft,actions) => crashPoints (unsynced {n with raft} actions).storage
      | none => [n.storage.disk] := by
    intro out
    cases out with
    | error => exact mem_singleton_self _
    | ok done =>
      obtain ⟨raft,actions⟩ := done
      have disk := congrArg disk (fileExec {n with raft} [] actions)
      exact disk ▸ syncPoint _
  cases call with
  | tick ms draw => exact result (.ok (n.raft.tick ms draw))
  | step sender msg draw =>
      exact result (.ok ((RaftNode.dispatch n.raft sender msg draw).1,(RaftNode.dispatch n.raft sender msg draw).2.2))
  | propose cmd => exact result (n.raft.propose cmd)
  | readIndex readId => exact result (n.raft.readIndex readId)
  | proposeConfChange cc => exact result (n.raft.proposeConfChange cc)
  | reopen => exact mem_singleton_self _

theorem crashSafeOrdered {n : FileNode} {call : Call} : CrashSafe n call ↔ ∀ disk ∈ crashes n call, Ordered disk := by
  simp only [CrashSafe,openFiles,Except.ok.injEq,exists_eq_left',Ordered]
  exact ⟨fun all disk mem => all disk mem [] 0,fun all disk mem _ _ => all disk mem⟩

theorem crashSafeIff {n : FileNode} {call : Call} (ordered : Ordered n.storage.disk) :
    CrashSafe n call ↔ Covered n call := by
  rw [crashSafeOrdered]
  unfold crashes Covered
  cases core n.raft call with
  | none => simpa using ordered
  | some done =>
    obtain ⟨raft,actions⟩ := done
    have same : (unsynced {n with raft} actions).storage.disk = n.storage.disk := unsyncedDisk {n with raft} actions
    exact (pointsOrdered _).trans ⟨And.right,fun covered => ⟨same ▸ ordered,covered⟩⟩

def step (n : FileNode) (call : Call) : Option FileNode := some (next n call)

def fresh (config : RaftConfig) (outcomes : List (Option String)) (draw : Nat) : FileNode :=
  reopened config ⟨none,none,none⟩ outcomes draw

end

end NoeDB.RaftFiles
