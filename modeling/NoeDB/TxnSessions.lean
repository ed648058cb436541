import NoeDB.Transactions

/-! Which transaction a session is in, and how the calls of the manager change that. -/
namespace NoeDB.TxnSessions
open ByteString OrderedTable StorageTypes MvccTable Transactions TxnManager Table UInt64 Option

def current (m : TxnManager) (session : UInt64) : Option Transaction := (m.sessions.find session).bind m.active.find

def Ticking (m : TxnManager) : Prop := m.oracle.toNat+2 < 2^64

instance (m) : Decidable (Ticking m) := inferInstanceAs (Decidable (_ < _))

structure Seated (m : TxnManager) : Prop where
  seat : ∀ session id, m.sessions.find session = some id → ∃ txn, m.active.find id = some txn
  distinct : ∀ session other id, m.sessions.find session = some id → m.sessions.find other = some id → session = other
  running : ∀ id txn, m.active.find id = some txn → txn.state = .active
  numbered : ∀ id txn, m.active.find id = some txn → id < m.nextId
  counted : m.nextId.toNat ≤ m.oracle.toNat+1

theorem seatedNew : Seated .new where
  seat _ _ found := nomatch found
  distinct _ _ _ found := nomatch found
  running _ _ found := nomatch found
  numbered _ _ found := nomatch found
  counted := by decide

section
variable {m : TxnManager} {session : UInt64} {id : TxnId} {txn : Transaction} {key : Bytes}

theorem nextTsTicking (ticking : Ticking m) : m.nextTs.toNat = m.oracle.toNat+1 ∧ m.tick.oracle = m.nextTs := by
  unfold Ticking at ticking
  have room : m.oracle ≠ 18446744073709551615 := by
    intro full
    rw [full] at ticking
    exact absurd ticking (by decide)
  have value : (m.oracle+1).toNat = m.oracle.toNat+1 := by
    have one : (1 : UInt64).toNat = 1 := rfl
    rw [UInt64.toNat_add,one]
    omega
  have above : (1 : UInt64) ≤ m.oracle+1 := by
    have one : (1 : UInt64).toNat = 1 := rfl
    rw [le_iff_toNat_le,value,one]
    omega
  have next : m.nextTs = m.oracle+1 := by
    unfold nextTs
    rw [if_neg room,max_eq_left above]
  exact ⟨next ▸ value,next.symm⟩

theorem tickAbove (ticking : Ticking m) : m.oracle < m.nextTs := by
  rw [lt_iff_toNat_lt,(nextTsTicking ticking).1]
  omega

theorem nextTsPositive (ticking : Ticking m) : m.nextTs ≠ 0 := by
  intro zero
  have value := (nextTsTicking ticking).1
  simp [zero] at value

theorem seatedTick (seated : Seated m) (ticking : Ticking m) : Seated m.tick :=
  {seated with
    counted := by
      have counted := seated.counted
      obtain ⟨value,same⟩ := nextTsTicking ticking
      rw [same,value]
      exact le_trans counted (Nat.le_succ _) }

theorem currentIff : current m session = some txn ↔ ∃ id, m.sessions.find session = some id ∧ m.active.find id = some txn :=
  bind_eq_some_iff

theorem currentNone (seated : Seated m) : current m session = none ↔ m.sessions.find session = none := by
  constructor
  · intro absent
    cases found : m.sessions.find session with
    | none => rfl
    | some id =>
      obtain ⟨_,active⟩ := seated.seat session id found
      simp [current,found,active] at absent
  · intro absent
    simp [current,absent]

theorem idAbove (seated : Seated m) (ticking : Ticking m) : (m.nextId+1).toNat = m.nextId.toNat+1 := by
  have counted := seated.counted
  unfold Ticking at ticking
  have one : (1 : UInt64).toNat = 1 := rfl
  rw [UInt64.toNat_add,one]
  omega

theorem currentStarted (seated : Seated m) (other) : current (m.started session) other =
    if session = other then some (.new m.nextId m.nextTs) else current m other := by
  simp only [current,started,tick,findInsert]
  split
  · simp
  · cases found : m.sessions.find other with
    | none => rfl
    | some id =>
      obtain ⟨txn,active⟩ := seated.seat other id found
      have differs : m.nextId ≠ id := (ne_of_lt (seated.numbered id txn active)).symm
      simp [differs]

theorem seatedStarted (seated : Seated m) (ticking : Ticking m) : Seated (m.started session) where
  seat other id found := by
    simp only [started,tick,findInsert] at found ⊢
    split
    · exact ⟨_,rfl⟩
    · rename_i differs
      split at found
      · exact absurd (some.inj found) differs
      · exact seated.seat other id found
  distinct first second id left right := by
    have below : ∀ {s}, m.sessions.find s = some m.nextId → False := by
      intro s found
      obtain ⟨txn,active⟩ := seated.seat s _ found
      exact lt_irrefl _ (seated.numbered _ _ active)
    simp only [started,tick,findInsert] at left right
    split at left <;> split at right
    · rename_i one two
      exact one.symm.trans two
    · cases some.inj left
      exact (below right).elim
    · cases some.inj right
      exact (below left).elim
    · exact seated.distinct first second id left right
  running id txn found := by
    simp only [started,tick,findInsert] at found
    split at found
    · cases some.inj found
      rfl
    · exact seated.running id txn found
  numbered id txn found := by
    have next := idAbove seated ticking
    simp only [started,tick,findInsert] at found ⊢
    rw [lt_iff_toNat_lt,next]
    split at found
    · rename_i same
      rw [same]
      omega
    · have below := seated.numbered id txn found
      rw [lt_iff_toNat_lt] at below
      omega
  counted := by
    have counted := seated.counted
    obtain ⟨value,same⟩ := nextTsTicking ticking
    have clock : (m.started session).oracle = m.nextTs := same
    have number : (m.started session).nextId.toNat = m.nextId.toNat+1 := idAbove seated ticking
    rw [clock,number,value]
    omega

theorem currentChanged (seated : Seated m) (own : m.sessions.find session = some id) (other) :
    current (m.changed id txn) other = if session = other then some txn else current m other := by
  simp only [current,changed]
  split
  · rename_i same
    simp [← same,own]
  · rename_i differs
    cases found : m.sessions.find other with
    | none => rfl
    | some id' =>
      have apart : id ≠ id' := fun same => differs (seated.distinct session other id own (same ▸ found))
      simp [apart]

theorem seatedChanged (seated : Seated m) (own : m.sessions.find session = some id) (running : txn.state = .active) :
    Seated (m.changed id txn) where
  seat other id' found := by
    simp only [changed,findInsert]
    split
    · exact ⟨_,rfl⟩
    · exact seated.seat other id' found
  distinct := seated.distinct
  running id' txn' found := by
    simp only [changed,findInsert] at found
    split at found
    · cases some.inj found
      exact running
    · exact seated.running id' txn' found
  numbered id' txn' found := by
    simp only [changed,findInsert] at found
    split at found
    · rename_i same
      obtain ⟨old,active⟩ := seated.seat session id own
      exact same ▸ seated.numbered id old active
    · exact seated.numbered id' txn' found
  counted := seated.counted

theorem currentClosed (seated : Seated m) (own : m.sessions.find session = some id) (other) :
    current (m.closed session id) other = if session = other then none else current m other := by
  simp only [current,closed,findErase]
  split
  · rfl
  · rename_i differs
    cases found : m.sessions.find other with
    | none => rfl
    | some id' =>
      have apart : id ≠ id' := fun same => differs (seated.distinct session other id own (same ▸ found))
      simp [apart]

theorem seatedClosed (seated : Seated m) (own : m.sessions.find session = some id) : Seated (m.closed session id) where
  seat other id' found := by
    simp only [closed,findErase] at found ⊢
    split at found
    · cases found
    · rename_i differs
      have apart : id ≠ id' := fun same => differs (seated.distinct session other id own (same ▸ found))
      rw [if_neg apart]
      exact seated.seat other id' found
  distinct first second id' left right := by
    simp only [closed,findErase] at left right
    split at left
    · cases left
    · split at right
      · cases right
      · exact seated.distinct first second id' left right
  running id' txn found := by
    simp only [closed,findErase] at found
    split at found
    · cases found
    · exact seated.running id' txn found
  numbered id' txn found := by
    simp only [closed,findErase] at found
    split at found
    · cases found
    · exact seated.numbered id' txn found
  counted := seated.counted

theorem seatedWith (seated : Seated m) (mvcc ssi) : Seated {m with mvcc := mvcc, ssi := ssi} :=
  ⟨seated.seat,seated.distinct,seated.running,seated.numbered,seated.counted⟩

theorem withTxnCurrent (seated : Seated m) {α : Type} (f : Transaction → α × Transaction)
    (inside : current m session = some txn) : ∃ id, m.sessions.find session = some id ∧
      m.active.find id = some txn ∧ m.withTxn session f = (.ok (f txn).1,m.changed id (f txn).2) := by
  obtain ⟨id,own,active⟩ := currentIff.mp inside
  refine ⟨id,own,active,?_⟩
  simp [withTxn,own,active,seated.running id txn active]

theorem withTxnOutside (seated : Seated m) {α : Type} (f : Transaction → α × Transaction)
    (outside : current m session = none) : m.withTxn session f = (.error (.error .noActiveTxn),m) := by
  simp [withTxn,(currentNone seated).mp outside]

theorem readViewCurrent (inside : current m session = some txn) :
    ∃ view, m.readView session = .ok view ∧ view.snapshotTs = txn.startTs := by
  obtain ⟨_,own,active⟩ := currentIff.mp inside
  simp only [readView,own,active]
  exact ⟨_,rfl,rfl⟩

theorem lookUpCurrent (seated : Seated m) (inside : current m session = some txn) :
    ∃ view : ReadView, view.snapshotTs = txn.startTs ∧ m.lookUp session key = (match txn.readOwn key with
      | some own => .ok own
      | none =>
          match m.mvcc.get key view with
          | .error _ => .error .panicked
          | .ok value => .ok value,m) := by
  obtain ⟨view,viewed,snapshot⟩ := readViewCurrent inside
  obtain ⟨id,_,active,looked⟩ := withTxnCurrent seated (fun txn => (txn.readOwn key,txn)) inside
  have unchanged : m.changed id txn = m := by
    simp [changed,insertSame active]
  refine ⟨view,snapshot,?_⟩
  simp only [lookUp,viewed,looked,unchanged]
  cases txn.readOwn key with
  | some => rfl
  | none => cases read : m.mvcc.get key view <;> simp [read]

theorem getCurrent (seated : Seated m) (inside : current m session = some txn) :
    ∃ (id : TxnId) (ssi : SsiChecker) (view : ReadView), m.sessions.find session = some id ∧
      view.snapshotTs = txn.startTs ∧ m.get session key = (match txn.readOwn key with
        | some own => .ok own
        | none =>
            match m.mvcc.get key view with
            | .error _ => .error .panicked
            | .ok value => .ok value,{m.changed id (txn.recordRead key) with ssi := ssi}) := by
  obtain ⟨id,own,active,recorded⟩ := withTxnCurrent seated (fun txn => ((),txn.recordRead key)) inside
  have running : (txn.recordRead key).state = .active := seated.running id txn active
  let tracked := (m.changed id (txn.recordRead key)).trackRwDependencies id key
  have seated' : Seated tracked := seatedWith (seatedChanged seated own running) m.mvcc tracked.ssi
  have inside' : current tracked session = some (txn.recordRead key) := by
    refine (currentChanged seated own session).trans ?_
    rw [if_pos rfl]
  obtain ⟨view,snapshot,looked⟩ := @lookUpCurrent _ _ _ key seated' inside'
  refine ⟨id,tracked.ssi,view,own,snapshot,?_⟩
  simp only [TxnManager.get,own,recorded]
  exact looked

theorem prepareCommitReturns (done : m.prepareCommit session late = (.ok (id,commitTs,pending),next)) :
    m.sessions.find session = some id ∧ (∃ txn, m.active.find id = some txn ∧ pending = txn.writeSet.entries) ∧
      commitTs = m.nextTs ∧ next = m.tick := by
  unfold prepareCommit at done
  split at done
  · cases done
  rename_i id' own
  split at done
  · cases done
  split at done
  · cases done
  rename_i txn active
  split at done
  · cases done
  · cases done
    exact ⟨own,⟨txn,active,rfl⟩,rfl,rfl⟩

theorem prepareCommitFails (done : m.prepareCommit session late = (.error fault,next)) : next = m := by
  unfold prepareCommit at done
  split at done
  · cases done; rfl
  split at done
  · cases done; rfl
  split at done
  · cases done; rfl
  split at done
  · cases done; rfl
  · cases done

end

section
open MvccMemTable
variable {table : MvccMemTable} {commitTs : CommitTs} {pending : List (Bytes × WriteOp)}

theorem applyPendingCons (key op rest) : applyPending table commitTs ((key,op) :: rest) =
      applyPending (table.commitVersion key (op.version commitTs)) commitTs rest := by
  cases op <;> rfl

theorem settledPending (settled : Settled table) (committed : commitTs ≠ 0) :
    Settled (applyPending table commitTs pending) := by
  induction pending generalizing table with
  | nil => exact settled
  | cons _ _ ih =>
    rw [applyPendingCons]
    exact ih (settledCommit settled (by simpa using committed))

theorem hasPending (ascending : Ascending pending) : (applyPending table commitTs pending).Has key version ↔
      (∃ op, findIn key pending = some op ∧ version = op.version commitTs) ∨
        (table.Has key version ∧ (version.commitTs = commitTs → findIn key pending = none)) := by
  induction pending generalizing table with
  | nil => simp [applyPending,findIn]
  | cons write rest ih =>
    obtain ⟨k,_⟩ := write
    obtain ⟨above,tail⟩ := List.pairwise_cons.mp ascending
    rw [applyPendingCons,ih tail,hasCommit]
    by_cases here : k = key
    · subst here
      have absent : findIn k rest = none := findInAbsent fun e mem same => absurd (above e mem) (by simp [same])
      simp [findIn,absent]
    · simp [findIn,here,Ne.symm here]

end
end NoeDB.TxnSessions
