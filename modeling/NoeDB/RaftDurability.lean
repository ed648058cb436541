import NoeDB.RaftEffects

/-! What the runtime writes down. A store has a buffered and a durable hard state;
the laws below are what the storage trait has to keep for the vote guarantees,
and both stores of the crate keep them. A call may fail at any action. -/
namespace NoeDB.RaftDurability
open RaftTypes RaftCore RaftRuntime RaftEffects List RaftNode RaftLog FileStorage

def Behind (a b : HardState) : Prop :=
  a.currentTerm < b.currentTerm ∨
    (a.currentTerm = b.currentTerm ∧ (a.votedFor = none ∨ a.votedFor = b.votedFor))

theorem behindRefl (a) : Behind a a := .inr ⟨rfl,.inr rfl⟩

theorem behindTrans (ab : Behind a b) (bc : Behind b c) : Behind a c := by
  rcases ab with less | ⟨same,vote⟩
  · rcases bc with less' | ⟨same',_⟩
    · exact .inl (less.trans less')
    · exact .inl (same' ▸ less)
  · rcases bc with less' | ⟨same',vote'⟩
    · exact .inl (same ▸ less')
    · refine .inr ⟨same.trans same',?_⟩
      rcases vote with none | eq
      · exact .inl none
      · rw [eq]
        exact vote'

structure Medium (S : Type) where
  buffered : S → HardState
  durable : S → HardState
  held : S → LogEntry → Prop

structure Medium.Moves {S : Type} (m : Medium S) (s s' : S) (fresh : List LogEntry) : Prop where
  flushed : m.durable s' = m.durable s ∨ m.durable s' = m.buffered s'
  entries : ∀ e, m.held s' e → m.held s e ∨ e ∈ fresh

class LawfulRaftStorage (S : Type) [RaftStorage S] where
  medium : Medium S
  loadHard : ∀ {s hs}, RaftStorage.loadHardState (S := S) s = .ok hs → hs = medium.buffered s
  loadLog : ∀ {s log}, RaftStorage.loadLog (S := S) s = .ok log → ∀ e ∈ log.entries, medium.held s e
  saveHard : ∀ s hs, medium.Moves s (RaftStorage.saveHardState s hs).1 []
  saveHardTo : ∀ s hs, medium.buffered (RaftStorage.saveHardState s hs).1 = hs ∨
    ((RaftStorage.saveHardState s hs).2 ≠ .ok () ∧
      medium.buffered (RaftStorage.saveHardState s hs).1 = medium.buffered s)
  append : ∀ s i es, medium.Moves s (RaftStorage.append s i es).1 es
  appendHard : ∀ s i es, medium.buffered (RaftStorage.append s i es).1 = medium.buffered s
  snapshot : ∀ s snap, medium.Moves s (RaftStorage.saveSnapshot s snap).1 [⟨snap.term,[]⟩]
  snapshotHard : ∀ s snap, medium.buffered (RaftStorage.saveSnapshot s snap).1 = medium.buffered s
  sync : ∀ s, medium.Moves s (RaftStorage.sync s).1 []
  syncHard : ∀ s, medium.buffered (RaftStorage.sync s).1 = medium.buffered s
  synced : ∀ s, (RaftStorage.sync s).2 = .ok () →
    medium.durable (RaftStorage.sync s).1 = medium.buffered (RaftStorage.sync s).1
  reopenBuffered : ∀ s, medium.buffered (RaftStorage.reopen s) = medium.durable s
  reopenDurable : ∀ s, medium.durable (RaftStorage.reopen s) = medium.durable s
  reopenEntries : ∀ s e, medium.held (RaftStorage.reopen s) e → medium.held s e

theorem memAppendHeld {s : MemStorage} (mem : e ∈ (s.append i es).log.entries) : e ∈ s.log.entries ∨ e ∈ es := by
  simp only [MemStorage.append,appendEntries,truncateEntries] at mem
  rcases mem_append.mp mem with kept | fresh
  · exact .inl (mem_of_mem_take kept)
  · exact .inr fresh

theorem memSnapshotHeld {s : MemStorage} (mem : e ∈ (s.saveSnapshot snap).log.entries) :
    e ∈ [(⟨snap.term,[]⟩ : LogEntry)] := by
  simp only [MemStorage.saveSnapshot,restoreEntries] at mem
  exact mem_singleton.mpr (eq_of_mem_replicate mem)

instance memLawful : LawfulRaftStorage MemStorage where
  medium := ⟨fun s => s.hard,fun s => s.hard,fun s e => e ∈ s.log.entries⟩
  loadHard ok := (Except.ok.inj ok).symm
  loadLog ok e mem := by
    cases Except.ok.inj ok
    exact mem
  saveHard s hs := ⟨.inr rfl,fun e held => .inl held⟩
  saveHardTo s hs := .inl rfl
  append s i es := ⟨.inl rfl,fun e held => memAppendHeld held⟩
  appendHard s i es := rfl
  snapshot s snap := ⟨.inl rfl,fun e held => .inr (memSnapshotHeld held)⟩
  snapshotHard s snap := rfl
  sync s := ⟨.inl rfl,fun e held => .inl held⟩
  syncHard s := rfl
  synced s _ := rfl
  reopenBuffered s := rfl
  reopenDurable s := rfl
  reopenEntries s e held := held

def diskHard (disk : Disk) : HardState := disk.hard.getD {}

def diskHolds (disk : Disk) (e : LogEntry) : Prop := e ∈ (disk.log.getD .new).entries

theorem writeRecordsKeep {P : Disk → Prop} {disk outcomes}
    (one : ∀ write ∈ writes, ∀ disk, P disk → P (write disk)) (start : P disk) :
    P (writeRecords disk outcomes writes).1 := by
  induction writes generalizing disk outcomes with
  | nil => simpa [writeRecords] using start
  | cons write _ ih =>
    have rest := fun w mem => one w (mem_cons_of_mem _ mem)
    have next := one write mem_cons_self disk start
    cases outcomes with
    | nil => exact ih rest next
    | cons outcome =>
      cases outcome with
      | none => exact ih rest next
      | some => exact start

theorem recordsCases {s : MemStorage} (mem : write ∈ s.records) (disk) :
    (diskHard (write disk) = diskHard disk ∨ diskHard (write disk) = s.hard) ∧
    (∀ e, diskHolds (write disk) e → diskHolds disk e ∨ e ∈ s.log.entries) := by
  have cases : write = (fun disk => {disk with hard := some s.hard}) ∨
      write = (fun disk => {disk with log := some s.log}) ∨
      ∃ snap, write = (fun disk => {disk with snapshot := some snap}) := by
    unfold MemStorage.records at mem
    cases shot : s.snapshot with
    | none =>
      rw [shot] at mem
      simp only [append_nil,mem_cons,not_mem_nil,or_false] at mem
      exact mem.imp_right .inl
    | some snap =>
      rw [shot] at mem
      simp only [cons_append,nil_append,mem_cons,not_mem_nil,or_false] at mem
      rcases mem with eq | eq | eq
      · exact .inl eq
      · exact .inr (.inl eq)
      · exact .inr (.inr ⟨snap,eq⟩)
  rcases cases with eq | eq | ⟨_,eq⟩ <;> subst eq
  · exact ⟨.inr rfl,fun e held => .inl held⟩
  · exact ⟨.inl rfl,fun e held => .inr held⟩
  · exact ⟨.inl rfl,fun e held => .inl held⟩

def fileMedium : Medium FileStorage :=
  ⟨fun s => s.mem.hard,fun s => diskHard s.disk,
    fun s e => e ∈ s.mem.log.entries ∨ diskHolds s.disk e⟩

theorem fileSyncMem (s : FileStorage) : s.sync.1.mem = s.mem := by
  unfold sync
  split
  · rfl
  · dsimp only
    split <;> rfl

theorem fileSyncDisk {s : FileStorage} {P : Disk → Prop} (start : P s.disk)
    (one : ∀ write ∈ s.mem.records, ∀ disk, P disk → P (write disk)) : P s.sync.1.disk := by
  unfold sync
  split
  · exact start
  · dsimp only
    split <;> exact writeRecordsKeep one start

theorem fileSyncMoves (s : FileStorage) : fileMedium.Moves s s.sync.1 [] := by
  constructor
  · have hard := fileSyncDisk (s := s)
      (P := fun disk => diskHard disk = diskHard s.disk ∨ diskHard disk = s.mem.hard) (.inl rfl)
      (fun write mem disk held => by
        rcases (recordsCases mem disk).1 with eq | eq
        · rw [eq]
          exact held
        · exact .inr eq)
    simpa only [fileMedium,fileSyncMem] using hard
  · intro e held
    refine .inl ?_
    have log := fileSyncDisk (s := s)
      (P := fun disk => diskHolds disk e → e ∈ s.mem.log.entries ∨ diskHolds s.disk e) .inr
      (fun write mem disk held holds => by
        rcases (recordsCases mem disk).2 e holds with old | new
        · exact held old
        · exact .inl new)
    simp only [fileMedium,fileSyncMem] at held ⊢
    rcases held with mem | disk
    · exact .inl mem
    · exact log disk

theorem fileSynced (s : FileStorage) (ok : s.sync.2 = .ok ()) : diskHard s.sync.1.disk = s.sync.1.mem.hard := by
  apply s.sync.1.written
  unfold sync at ok ⊢
  split
  · rename_i clean
    simpa using clean
  · rename_i dirty
    dsimp only at ok ⊢
    split
    · rfl
    · rename_i failed
      rw [if_neg dirty] at ok
      split at ok
      · rename_i done
        rw [failed] at done
        cases done
      · cases ok

instance fileLawful : LawfulRaftStorage FileStorage where
  medium := fileMedium
  loadHard ok := (Except.ok.inj ok).symm
  loadLog ok e mem := by
    cases Except.ok.inj ok
    exact .inl mem
  saveHard s hs := ⟨.inl rfl,fun e held => .inl held⟩
  saveHardTo s hs := .inl rfl
  append s i es := by
    refine ⟨.inl rfl,fun e held => ?_⟩
    rcases held with mem | disk
    · exact (memAppendHeld mem).imp_left .inl
    · exact .inl (.inr disk)
  appendHard s i es := rfl
  snapshot s snap := by
    refine ⟨.inl rfl,fun e held => ?_⟩
    rcases held with mem | disk
    · exact .inr (memSnapshotHeld mem)
    · exact .inl (.inr disk)
  snapshotHard s snap := rfl
  sync := fileSyncMoves
  syncHard s := congrArg MemStorage.hard (fileSyncMem s)
  synced := fileSynced
  reopenBuffered s := rfl
  reopenDurable s := rfl
  reopenEntries s e held := .inr (held.elim id id)

section
variable {S : Type} [RaftStorage S]

theorem execOneCore (n : RaftNode S) (action) :
    (n.execOne action).1.raft = {n.raft with log := (n.execOne action).1.raft.log} := by
  cases action with
  | snapshot =>
    simp only [execOne]
    split <;> rfl
  | _ => rfl

theorem execLoopCore (n : RaftNode S) (outbound actions) : (n.execLoop outbound actions).1.raft =
      {n.raft with log := (n.execLoop outbound actions).1.raft.log} := by
  induction actions generalizing n outbound with
  | nil => rfl
  | cons action _ ih =>
    have head := execOneCore n action
    simp only [execLoop]
    split
    · rename_i sent _
      have tail := ih (n.execOne action).1 (outbound ++ sent)
      rw [head] at tail
      exact tail
    · exact head

theorem execCore (n : RaftNode S) (actions) :
    (n.exec actions).1.raft = {n.raft with log := (n.exec actions).1.raft.log} :=
  execLoopCore n [] actions

theorem execOneSent (n : RaftNode S) (action) (ok : (n.execOne action).2 = .ok sent) : sent = sendsOf [action] := by
  cases action with
  | send | apply => exact (Except.ok.inj ok).symm
  | persistHardState | persistLog =>
    simp only [execOne,stored] at ok
    split at ok
    · exact (Except.ok.inj ok).symm
    · cases ok
  | snapshot =>
    simp only [execOne] at ok
    split at ok
    · rename_i done
      simp only [stored,done] at ok
      exact (Except.ok.inj ok).symm
    · rename_i failed
      simp only [stored,failed] at ok
      cases ok

theorem execLoopSent (n : RaftNode S) (outbound actions)
    (ok : (n.execLoop outbound actions).2 = .ok out) : out = outbound ++ sendsOf actions := by
  induction actions generalizing n outbound with
  | nil =>
    simp only [execLoop,stored] at ok
    split at ok
    · simpa using (Except.ok.inj ok).symm
    · cases ok
  | cons action _ ih =>
    simp only [execLoop] at ok
    split at ok
    · rename_i sent head
      rw [ih _ _ ok,execOneSent n action head,append_assoc,← sendsOfAppend]
      rfl
    · cases ok

theorem execSent (n : RaftNode S) (actions) (ok : (n.exec actions).2 = .ok out) : out = sendsOf actions := by
  simpa using execLoopSent n [] actions ok

variable [LawfulRaftStorage S]

def buffered (s : S) : HardState := (LawfulRaftStorage.medium (S := S)).buffered s
def durable (s : S) : HardState := (LawfulRaftStorage.medium (S := S)).durable s
def held (s : S) (e : LogEntry) : Prop := (LawfulRaftStorage.medium (S := S)).held s e

structure Trail (base : HardState) (s : S) (hard : HardState) : Prop where
  grown : Behind base (durable s)
  flushed : Behind (durable s) (buffered s)
  saved : Behind (buffered s) hard

theorem trailMoves (trail : Trail base s hard) (moves : (LawfulRaftStorage.medium (S := S)).Moves s s' fresh)
    (next : buffered s' = buffered s ∨ buffered s' = hard) : Trail base s' hard := by
  have ahead : Behind (buffered s) (buffered s') := by
    rcases next with eq | eq
    · rw [eq]
      exact behindRefl _
    · rw [eq]
      exact trail.saved
  have saved : Behind (buffered s') hard := by
    rcases next with eq | eq
    · rw [eq]
      exact trail.saved
    · rw [eq]
      exact behindRefl _
  rcases moves.flushed with same | flushed
  · have eq : durable s' = durable s := same
    exact ⟨eq ▸ trail.grown,eq ▸ behindTrans trail.flushed ahead,saved⟩
  · have eq : durable s' = buffered s' := flushed
    exact ⟨eq ▸ behindTrans trail.grown (behindTrans trail.flushed ahead),eq ▸ behindRefl _,saved⟩

theorem execOneTrail {n : RaftNode S} (action) (trail : Trail base n.storage n.raft.hard) :
    Trail base (n.execOne action).1.storage n.raft.hard := by
  cases action with
  | persistHardState =>
    refine trailMoves trail (LawfulRaftStorage.saveHard n.storage n.raft.hard) ?_
    rcases LawfulRaftStorage.saveHardTo n.storage n.raft.hard with eq | ⟨_,eq⟩
    · exact .inr eq
    · exact .inl eq
  | persistLog i es =>
    exact trailMoves trail (LawfulRaftStorage.append n.storage i es)
      (.inl (LawfulRaftStorage.appendHard n.storage i es))
  | snapshot snap =>
    have next := trailMoves trail (LawfulRaftStorage.snapshot n.storage snap)
      (.inl (LawfulRaftStorage.snapshotHard n.storage snap))
    simp only [execOne]
    split <;> exact next
  | apply | send => exact trail

theorem execLoopTrail {n : RaftNode S} (outbound actions) (trail : Trail base n.storage n.raft.hard) :
    Trail base (n.execLoop outbound actions).1.storage n.raft.hard := by
  induction actions generalizing n outbound with
  | nil =>
    exact trailMoves trail (LawfulRaftStorage.sync n.storage) (.inl (LawfulRaftStorage.syncHard n.storage))
  | cons action _ ih =>
    have head := execOneTrail action trail
    have hard : (n.execOne action).1.raft.hard = n.raft.hard := by rw [execOneCore]
    simp only [execLoop]
    split
    · rw [← hard] at head ⊢
      exact ih _ head
    · exact head

theorem execTrail {n : RaftNode S} (actions) (trail : Trail base n.storage n.raft.hard) :
    Trail base (n.exec actions).1.storage n.raft.hard := execLoopTrail [] actions trail

theorem execOneBuffered {n : RaftNode S} (action) (ok : (n.execOne action).2 = .ok sent)
    (saves : buffered n.storage = n.raft.hard ∨ action = .persistHardState) :
    buffered (n.execOne action).1.storage = n.raft.hard := by
  cases action with
  | persistHardState =>
    rcases LawfulRaftStorage.saveHardTo n.storage n.raft.hard with eq | ⟨_,_⟩
    · exact eq
    · simp only [execOne,stored] at ok
      split at ok
      · contradiction
      · cases ok
  | persistLog i es =>
    exact (LawfulRaftStorage.appendHard n.storage i es).trans (saves.resolve_right (by simp))
  | snapshot snap =>
    have same := (LawfulRaftStorage.snapshotHard n.storage snap).trans (saves.resolve_right (by simp))
    simp only [execOne]
    split <;> exact same
  | apply | send => exact saves.resolve_right (by simp)

theorem execLoopDurable {n : RaftNode S} (outbound actions) (ok : (n.execLoop outbound actions).2 = .ok out)
    (saves : buffered n.storage = n.raft.hard ∨ .persistHardState ∈ actions) :
    durable (n.execLoop outbound actions).1.storage = n.raft.hard := by
  induction actions generalizing n outbound with
  | nil =>
    have before := saves.resolve_right (by simp)
    simp only [execLoop,stored] at ok
    split at ok
    · rename_i done
      exact (LawfulRaftStorage.synced n.storage done).trans ((LawfulRaftStorage.syncHard n.storage).trans before)
    · cases ok
  | cons action _ ih =>
    have hard : (n.execOne action).1.raft.hard = n.raft.hard := by rw [execOneCore]
    simp only [execLoop] at ok ⊢
    split at ok
    · rename_i sent head
      rw [← hard]
      refine ih _ ok ?_
      rw [hard]
      rcases saves with before | mem
      · exact .inl (execOneBuffered action head (.inl before))
      · rcases mem_cons.mp mem with same | later
        · exact .inl (execOneBuffered action head (.inr same.symm))
        · exact .inr later
    · cases ok

theorem execDurable {n : RaftNode S} (ok : (n.exec actions).2 = .ok out) (saves : .persistHardState ∈ actions) :
    durable (n.exec actions).1.storage = n.raft.hard := execLoopDurable [] actions ok (.inr saves)

structure Covers (P : LogEntry → Prop) (actions : List Action) : Prop where
  filler : ∀ term, P ⟨term,[]⟩
  written : ∀ i es, .persistLog i es ∈ actions → ∀ e ∈ es, P e

structure Confined (P : LogEntry → Prop) (n : RaftNode S) : Prop where
  log : ∀ e ∈ n.raft.log.entries, P e
  store : ∀ e, held n.storage e → P e

theorem movesConfined {P : LogEntry → Prop} (moves : (LawfulRaftStorage.medium (S := S)).Moves s s' fresh)
    (before : ∀ e, held s e → P e) (new : ∀ e ∈ fresh, P e) : ∀ e, held s' e → P e := by
  intro e mem
  rcases moves.entries e mem with old | mem
  · exact before e old
  · exact new e mem

theorem execOneConfined {P : LogEntry → Prop} {n : RaftNode S}
    (covers : Covers P [action]) (before : Confined P n) : Confined P (n.execOne action).1 := by
  cases action with
  | persistHardState =>
    exact ⟨before.log,movesConfined (LawfulRaftStorage.saveHard n.storage n.raft.hard) before.store (by simp)⟩
  | persistLog i es =>
    exact ⟨before.log,movesConfined (LawfulRaftStorage.append n.storage i es) before.store
      (covers.written i es (by simp))⟩
  | snapshot snap =>
    have store := movesConfined (LawfulRaftStorage.snapshot n.storage snap) before.store (fun e mem => by
        cases mem_singleton.mp mem
        exact covers.filler snap.term)
    simp only [execOne]
    split
    · refine ⟨fun e mem => ?_,store⟩
      simp only [stored,restoreLog,Raft.restoreLog,restoreEntries] at mem
      rw [eq_of_mem_replicate mem]
      exact covers.filler snap.term
    · exact ⟨before.log,store⟩
  | apply => exact ⟨before.log,before.store⟩
  | send => exact before

theorem execLoopConfined {P : LogEntry → Prop} {n : RaftNode S}
    (covers : Covers P actions) (before : Confined P n) : Confined P (n.execLoop outbound actions).1 := by
  induction actions generalizing n outbound with
  | nil =>
    exact ⟨before.log,movesConfined (LawfulRaftStorage.sync n.storage) before.store (by simp)⟩
  | cons action _ ih =>
    have head : Confined P (n.execOne action).1 := execOneConfined
      ⟨covers.filler,fun i es mem => covers.written i es (by
        cases mem_singleton.mp mem
        exact mem_cons_self)⟩ before
    simp only [execLoop]
    split
    · exact ih ⟨covers.filler,fun i es mem => covers.written i es (mem_cons_of_mem _ mem)⟩ head
    · exact head

theorem execConfined {n : RaftNode S}
    (covers : Covers P actions) (before : Confined P n) : Confined P (n.exec actions).1 :=
  execLoopConfined covers before

end

end NoeDB.RaftDurability
