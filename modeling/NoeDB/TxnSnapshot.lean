import NoeDB.TxnHistory
import Mathlib.Data.List.TakeWhile

/-! Statements of several sessions over one engine, and what a transaction reads of a key
that it has not written while the others commit and prune versions. -/
namespace NoeDB.TxnSnapshot
open ByteString OrderedTable StorageTypes NewestPerKey Fallible Execution Lsm LsmTree LsmReads LsmCompaction LsmGc LsmVersions List Option Table
open MvccTable MvccMemTable Transactions TxnManager TxnSessions TxnStorage TxnOverlay TxnHistory

inductive Statement where
  | begin (session : UInt64)
  | read (session : UInt64) (key : Bytes)
  | write (session : UInt64) (key : Bytes) (op : WriteOp)
  | commit (session : UInt64) (late : Bool)
  | rollback (session : UInt64)
  deriving DecidableEq

def pendingOf (m : TxnManager) (session : UInt64) : List (Bytes × WriteOp) :=
  ((current m session).map fun txn => txn.writeSet.entries).getD []

/- The writes that a statement commits, and the engine after it. A read of a transaction is
recorded in it; a write outside of transactions is committed at once. -/
def perform (engine : Engine) : Statement → List (Bytes × WriteOp) × Engine
  | .begin session => ([],{engine with manager := (engine.manager.begin session).2})
  | .read session key =>
      ([],{engine with manager := (engine.manager.withTxn session fun txn => ((),txn.recordRead key)).2})
  | .write session key op =>
      match engine.manager.sessions.find session with
      | some _ => ([],{engine with manager := (engine.manager.withTxn session fun txn => ((),txn.write key op)).2})
      | none =>
          match engine.autocommit key op with
          | (.ok _,next) => ([(key,op)],next)
          | (.error _,next) => ([],next)
  | .commit session late =>
      match engine.commitToStorage (fun _ => none) session late with
      | (.ok _,next) => (pendingOf engine.manager session,next)
      | (.error _,next) => ([],next)
  | .rollback session => ([],{engine with manager := (engine.manager.rollback session).2})

structure Db where
  engine : Engine
  contents : Contents

def opened (config : LsmConfig) : Db := ⟨⟨.new,fresh config⟩,fun _ => none⟩

def step (db : Db) (statement : Statement) : Option Db :=
  some ⟨(perform db.engine statement).2,updated db.contents (perform db.engine statement).1⟩

def stampOf (r : Record) : CommitTs := ((versionOf r).map Version.commitTs).getD 0

def Spares (tree : LsmTree) (writes : List (Bytes × WriteOp)) (snapshot : CommitTs) : Prop :=
  ∀ r ∈ tree.active.iter, stampOf r ≤ snapshot →
    (∃ q ∈ scanned tree, decodeUserKey q.1 = decodeUserKey r.1 ∧ stampOf r < stampOf q ∧ stampOf q ≤ snapshot) ∨
      ((∀ w ∈ writes, w.1 ≠ decodeUserKey r.1) ∧
        ∀ q ∈ tree.active.iter, decodeUserKey q.1 = decodeUserKey r.1 → stampOf q ≤ snapshot)

instance (tree writes snapshot) : Decidable (Spares tree writes snapshot) := by unfold Spares; infer_instance

/- A write outside of transactions must not concern a key of the version table, which it
bypasses, and a commit must spare what the other transactions read. -/
def Calm (db : Db) : Statement → Prop
  | .write session key op => Ticking db.engine.manager ∧ Storable (key,op) ∧ ¬userKeyPrefixEnd key < key ∧
      (db.engine.manager.sessions.find session = none →
        ∀ e ∈ db.engine.manager.mvcc.data.entries, decodeUserKey e.1 ≠ key)
  | .commit session _ => Ticking db.engine.manager ∧
      ∀ e ∈ db.engine.manager.active.entries, db.engine.manager.sessions.find session ≠ some e.1 →
        Spares db.engine.tree (pendingOf db.engine.manager session) e.2.startTs
  | _ => Ticking db.engine.manager

instance (db statement) : Decidable (Calm db statement) := by cases statement <;> unfold Calm <;> infer_instance

def Watched (m : TxnManager) (ts : CommitTs) : Prop :=
  m.oracle ≤ ts ∨ ∃ id txn, m.active.find id = some txn ∧ txn.startTs = ts

structure Later (m next : TxnManager) : Prop where
  clock : m.oracle ≤ next.oracle
  ids : m.nextId ≤ next.nextId
  kept : ∀ id txn, next.active.find id = some txn →
    (∃ old, m.active.find id = some old ∧ old.startTs = txn.startTs) ∨
      (m.nextId ≤ id ∧ m.oracle ≤ txn.startTs ∧ txn.startTs ≤ next.oracle)

section
variable {m next last : TxnManager} {session : UInt64} {id : TxnId} {txn : Transaction}

theorem laterRefl : Later m m := ⟨le_refl _,le_refl _,fun _ txn found => .inl ⟨txn,found,rfl⟩⟩

theorem laterTrans (one : Later m next) (two : Later next last) : Later m last where
  clock := le_trans one.clock two.clock
  ids := le_trans one.ids two.ids
  kept id txn found := by
    rcases two.kept id txn found with ⟨mid,there,same⟩ | ⟨number,low,high⟩
    · rw [← same]
      rcases one.kept id mid there with old | ⟨number,low,high⟩
      · exact .inl old
      · exact .inr ⟨number,low,le_trans high two.clock⟩
    · exact .inr ⟨le_trans one.ids number,le_trans one.clock low,high⟩

theorem laterTick (ticking : Ticking m) : Later m m.tick where
  clock := by
    rw [(nextTsTicking ticking).2]
    exact le_of_lt (tickAbove ticking)
  ids := le_refl _
  kept _ txn found := .inl ⟨txn,found,rfl⟩

theorem laterStarted (seated : Seated m) (ticking : Ticking m) : Later m (m.started session) where
  clock := (laterTick ticking).clock
  ids := by
    change m.nextId ≤ m.nextId+1
    rw [UInt64.le_iff_toNat_le,idAbove seated ticking]
    exact Nat.le_succ _
  kept id txn found := by
    simp only [started,tick,findInsert] at found
    split at found
    · rename_i same
      cases some.inj found
      have clock := (nextTsTicking ticking).2
      exact .inr ⟨le_of_eq same,le_of_lt (tickAbove ticking),le_of_eq clock.symm⟩
    · exact .inl ⟨txn,found,rfl⟩

theorem laterChanged (active : m.active.find id = some old) (same : old.startTs = txn.startTs) :
    Later m (m.changed id txn) where
  clock := le_refl _
  ids := le_refl _
  kept id' txn' found := by
    simp only [changed,findInsert] at found
    split at found
    · rename_i here
      cases some.inj found
      exact .inl ⟨old,here ▸ active,same⟩
    · exact .inl ⟨txn',found,rfl⟩

theorem activeClosed {txn' id'} (found : (m.closed session id).active.find id' = some txn') :
    id ≠ id' ∧ m.active.find id' = some txn' := by
  simpa [closed] using found

theorem laterClosed : Later m (m.closed session id) where
  clock := le_refl _
  ids := le_refl _
  kept _ txn found := .inl ⟨txn,(activeClosed found).2,rfl⟩

theorem laterWith (later : Later m next) (mvcc ssi) :
    Later m {next with mvcc := mvcc, ssi := ssi} := ⟨later.clock,later.ids,later.kept⟩

theorem startKept (seated : Seated m) (ticking : Ticking m) (later : Later (m.started session) next)
    (active : next.active.find m.nextId = some txn) : txn.startTs = m.nextTs := by
  rcases later.kept _ txn active with ⟨_,there,stamp⟩ | ⟨number,-,-⟩
  · simp only [started,tick,findInsert,if_true,some.injEq] at there
    rw [← stamp,← there]
    rfl
  · have above : (m.started session).nextId.toNat = m.nextId.toNat+1 := idAbove seated ticking
    rw [UInt64.le_iff_toNat_le,above] at number
    omega

theorem watchedLater (later : Later m next) (watch : Watched next ts) : Watched m ts := by
  rcases watch with clock | ⟨id,txn,found,rfl⟩
  · exact .inl (le_trans later.clock clock)
  · rcases later.kept id txn found with ⟨old,there,same⟩ | ⟨-,low,-⟩
    · exact .inr ⟨id,old,there,same⟩
    · exact .inl low

end

structure Sound (db : Db) (history : History) : Prop where
  seated : Seated db.engine.manager
  starts : ∀ id txn, db.engine.manager.active.find id = some txn → txn.startTs ≤ db.engine.manager.oracle
  staged : ∀ id txn, db.engine.manager.active.find id = some txn →
    ∀ w ∈ txn.writeSet.entries, Storable w ∧ ¬userKeyPrefixEnd w.1 < w.1
  recorded : Recorded db.engine.tree db.engine.manager.oracle (Watched db.engine.manager) history db.contents
  mirrored : Mirrored db.engine.manager.mvcc db.engine.tree

def Continues (m : TxnManager) (history : History) (next : Db) : Prop :=
  ∃ history', Sound next history' ∧ Later m next.engine.manager ∧
    ∀ key v, v.commitTs ≤ m.oracle → (history' key v ↔ history key v)

theorem soundOpened (config) : Sound (opened config) fun _ _ => False where
  seated := seatedNew
  starts _ _ found := nomatch found
  staged _ _ found := nomatch found
  recorded := recordedFresh config
  mirrored := mirroredNew _

section
variable {db : Db} {history : History} {session : UInt64}

theorem startsLater (sound : Sound db history) (later : Later db.engine.manager m) :
    ∀ id txn, m.active.find id = some txn → txn.startTs ≤ m.oracle := by
  intro id txn found
  rcases later.kept id txn found with ⟨old,there,same⟩ | ⟨-,-,high⟩
  · exact same ▸ le_trans (sound.starts id old there) later.clock
  · exact high

theorem soundManager (sound : Sound db history) (seated : Seated m)
    (later : Later db.engine.manager m) (memory : m.mvcc = db.engine.manager.mvcc)
    (staged : ∀ id txn, m.active.find id = some txn → ∀ w ∈ txn.writeSet.entries, Storable w ∧ ¬userKeyPrefixEnd w.1 < w.1) :
    Sound ⟨⟨m,db.engine.tree⟩,db.contents⟩ history where
  seated := seated
  starts := startsLater sound later
  staged := staged
  recorded := recordedWatch sound.recorded later.clock fun _ => watchedLater later
  mirrored := memory.symm ▸ sound.mirrored

theorem soundStarted (sound : Sound db history) (ticking : Ticking db.engine.manager) (session) :
    Sound ⟨⟨db.engine.manager.started session,db.engine.tree⟩,db.contents⟩ history := by
  refine soundManager sound (seatedStarted sound.seated ticking) (laterStarted sound.seated ticking) rfl ?_
  intro id txn found
  simp only [started,tick,findInsert] at found
  split at found
  · cases some.inj found
    exact fun w mem => absurd mem not_mem_nil
  · exact sound.staged id txn found

theorem continuesManager (later : Later db.engine.manager m)
    (sound : Sound ⟨⟨m,db.engine.tree⟩,db.contents⟩ history) :
    Continues db.engine.manager history ⟨⟨m,db.engine.tree⟩,db.contents⟩ :=
  ⟨history,sound,later,fun _ _ _ => Iff.rfl⟩

theorem continuesSame (sound : Sound db history) : Continues db.engine.manager history db :=
  ⟨history,sound,laterRefl,fun _ _ _ => Iff.rfl⟩

theorem continuesBegin (sound : Sound db history) (ticking : Ticking db.engine.manager) :
    Continues db.engine.manager history ⟨{db.engine with manager := (db.engine.manager.begin session).2},db.contents⟩ := by
  unfold TxnManager.begin
  split
  · exact continuesSame sound
  · exact continuesManager (laterStarted sound.seated ticking) (soundStarted sound ticking session)

theorem continuesWithTxn (sound : Sound db history) {f : Transaction → Unit × Transaction}
    (start : ∀ txn, (f txn).2.startTs = txn.startTs) (state : ∀ txn, (f txn).2.state = txn.state)
    (staged : ∀ txn, ∀ w ∈ (f txn).2.writeSet.entries,
      w ∈ txn.writeSet.entries ∨ Storable w ∧ ¬userKeyPrefixEnd w.1 < w.1) : Continues db.engine.manager history
      ⟨{db.engine with manager := (db.engine.manager.withTxn session f).2},db.contents⟩ := by
  cases inside : current db.engine.manager session with
  | none =>
    rw [withTxnOutside sound.seated f inside]
    exact continuesSame sound
  | some txn =>
    obtain ⟨id,own,active,done⟩ := withTxnCurrent sound.seated f inside
    have running : (f txn).2.state = .active := (state txn).trans (sound.seated.running id txn active)
    have later := laterChanged active (start txn).symm
    rw [done]
    refine continuesManager later (soundManager sound (seatedChanged sound.seated own running) later rfl ?_)
    intro id' txn' found w mem
    simp only [changed,findInsert] at found
    split at found
    · cases some.inj found
      exact (staged txn w mem).elim (sound.staged id txn active w) fun ok => ok
    · exact sound.staged id' txn' found w mem

theorem continuesRollback (sound : Sound db history) : Continues db.engine.manager history
    ⟨{db.engine with manager := (db.engine.manager.rollback session).2},db.contents⟩ := by
  unfold TxnManager.rollback
  split
  · exact continuesSame sound
  · rename_i id own
    have later : Later db.engine.manager {db.engine.manager.closed session id with
        mvcc := db.engine.manager.mvcc.abortIntents id, ssi := db.engine.manager.ssi.purge id} := laterWith laterClosed _ _
    refine continuesManager later (soundManager sound (seatedWith (seatedClosed sound.seated own) _ _) later
      (abortSettled sound.mirrored.settled id) ?_)
    exact fun id' txn found => sound.staged id' txn (@activeClosed _ session id _ _ found).2

theorem heldEarlier (sound : Sound db history) (ticking : Ticking db.engine.manager) (key v)
    (held : Held db.engine.tree key v) : v.commitTs < db.engine.manager.nextTs :=
  lt_of_le_of_lt (sound.recorded.past key v (sound.recorded.held key v held)) (tickAbove ticking)

theorem extendedBefore (ticking : Ticking db.engine.manager) (writes key v)
    (before : v.commitTs ≤ db.engine.manager.oracle) :
    extended history db.engine.manager.nextTs writes key v ↔ history key v := by
  refine or_iff_right fun made => ?_
  rw [madeStamp made] at before
  exact absurd before (not_le.mpr (tickAbove ticking))

theorem contentsAt (sound : Sound db history) (ticking : Ticking db.engine.manager) {history' : History}
    (same : ∀ v, v.commitTs ≤ db.engine.manager.nextTs → (history' key v ↔ history key v)) :
    Reading (fun v => history' key v ∧ v.commitTs ≤ db.engine.manager.nextTs) (db.contents key) := by
  refine (readingCongr fun v => ?_).mp (sound.recorded.contents key)
  constructor
  · intro old
    have past := le_trans (sound.recorded.past key v old) (le_of_lt (tickAbove ticking))
    exact ⟨(same v past).mpr old,past⟩
  · rintro ⟨made,past⟩
    exact (same v past).mp made

theorem continuesAutocommit (sound : Sound db history) (ticking : Ticking db.engine.manager)
    (storable : Storable (key,op)) (absent : ∀ e ∈ db.engine.manager.mvcc.data.entries, decodeUserKey e.1 ≠ key) :
    ∃ next, db.engine.autocommit key op = (.ok (),next) ∧
      Continues db.engine.manager history ⟨next,updated db.contents [(key,op)]⟩ := by
  have clock := (nextTsTicking ticking).2
  obtain ⟨tree,ran,persisted⟩ := putVersionPersists (nextTsPositive ticking) storable sound.recorded.versioned
    fun v held => ne_of_lt (heldEarlier sound ticking key v held)
  have ascending : Ascending [(key,op)] := pairwise_singleton _ _
  have later := laterTick ticking
  have recorded := recordedWatch (recordedPersisted sound.recorded (tickAbove ticking) ascending persisted)
    (le_of_eq clock.symm) fun _ => watchedLater later
  have mirrored : Mirrored db.engine.manager.mvcc tree := by
    refine mirroredBypass sound.mirrored ascending (fun w mem v has => ?_) persisted
    rw [mem_singleton.mp mem] at has
    exact absent _ (memIff.mpr has) (decodeInternalKey _ _)
  refine ⟨⟨db.engine.manager.tick,tree⟩,by simp only [Engine.autocommit,ran],_,⟨seatedTick sound.seated ticking,
    startsLater sound later,sound.staged,recorded,mirrored⟩,later,extendedBefore ticking _⟩

theorem sparesSafe (sound : Sound db history) (ticking : Ticking db.engine.manager) {next} (persisted : Persisted db.engine.tree db.engine.manager.nextTs writes next)
    (early : ts ≤ db.engine.manager.oracle) (spares : Spares db.engine.tree writes ts)
    (top : ∀ u, Held next key u → u.commitTs ≤ ts → u.commitTs ≤ v.commitTs) (seen : v.commitTs ≤ ts)
    (own : recordOf key v ∈ next.active.iter) (beside : recordOf key w ∈ next.active.iter) :
    ¬v.commitTs < w.commitTs := by
  have versioned := sound.recorded.versioned
  have active : ∀ {r : Record}, r ∈ db.engine.tree.active.iter → r ∈ scanned db.engine.tree := mem_append_right _
  have kept : ∀ {u}, Held db.engine.tree key u → Held next key u := fun held => (persisted.records _).mpr (.inr held)
  have stamp : ∀ {k u}, Held db.engine.tree k u → stampOf (recordOf k u) = u.commitTs := by
    intro k u held
    simp [stampOf,recordVersion (versioned.committed held).2]
  have user : ∀ {k u}, decodeUserKey (recordOf k u).1 = k := decodeInternalKey _ _
  have old : recordOf key v ∈ db.engine.tree.active.iter := by
    rcases persisted.active _ own with ⟨q,-,same⟩ | old
    · obtain ⟨-,rfl⟩ := recordInjective same
      rw [WriteOp.versionStamp] at seen
      exact absurd (le_trans seen early) (not_le.mpr (tickAbove ticking))
    · exact old
  have older := stamp (active old)
  rcases spares _ old (older.symm ▸ seen) with ⟨q,mem,same,above,below⟩ | ⟨untouched,low⟩
  · obtain ⟨k,u,rfl,-⟩ := versioned.shape q mem
    rw [user,user] at same
    subst same
    rw [older,stamp mem] at above
    rw [stamp mem] at below
    exact absurd above (not_lt.mpr (top u (kept mem) below))
  · rw [user] at untouched low
    rcases persisted.active _ beside with ⟨q,mem,same⟩ | other
    · exact absurd (recordInjective same).1.symm (untouched q mem)
    · have seen' := low _ other user
      rw [stamp (active other)] at seen'
      exact not_lt.mpr (top w (kept (active other)) seen')

theorem continuesCommit (sound : Sound db history) (ticking : Ticking db.engine.manager) (late : Bool)
    (spares : ∀ e ∈ db.engine.manager.active.entries, db.engine.manager.sessions.find session ≠ some e.1 →
      Spares db.engine.tree (pendingOf db.engine.manager session) e.2.startTs) :
    (∃ fault, db.engine.commitToStorage (fun _ => none) session late = (.error fault,db.engine)) ∨
      ∃ next, db.engine.commitToStorage (fun _ => none) session late = (.ok (),next) ∧
        Continues db.engine.manager history ⟨next,updated db.contents (pendingOf db.engine.manager session)⟩ := by
  let m := db.engine.manager
  rcases prepared : m.prepareCommit session late with ⟨fault | ⟨id,_,pending⟩,_⟩
  · have same := prepareCommitFails prepared
    refine .inl ⟨fault,?_⟩
    simp [Engine.commitToStorage,commitWithDurable,m,prepared,same]
  · obtain ⟨own,⟨txn,active,rfl⟩,rfl,rfl⟩ := prepareCommitReturns prepared
    have pending : pendingOf m session = txn.writeSet.entries := by simp [pendingOf,current,own,active]
    have ascending := txn.writeSet.ascending
    have staged := sound.staged id txn active
    have past := heldEarlier sound ticking
    obtain ⟨_,next,done,persisted,whole⟩ := @putPendingPersists (fun _ => none) _ _ (nextTsPositive ticking) _
      ascending (fun w mem => (staged w mem).1) sound.recorded.versioned fun w _ v held => ne_of_lt (past w.1 v held)
    have all : applied (fun _ => none) txn.writeSet.entries = txn.writeSet.entries := 
      takeWhile_eq_self_iff.mpr fun _ _ => rfl
    rw [all] at persisted
    cases whole.mpr fun _ _ => rfl
    let closed := m.tick.closed session id
    let keep := Engine.minRetain closed
    have clock : closed.oracle = m.nextTs := (nextTsTicking ticking).2
    have later : Later m closed := laterTrans (laterTick ticking) laterClosed
    have recorded := recordedWatch (recordedPersisted sound.recorded (tickAbove ticking) ascending persisted)
      (le_of_eq clock.symm) fun _ => watchedLater later
    have later' : Later m ((m.tick.finishCommit session id m.nextTs txn.writeSet.entries).gc keep) := laterWith later _ _
    have pruned : execute (gcMvccActive keep) next = (.ok _,collected next keep) := gcReturns.mpr ⟨rfl,rfl⟩
    refine .inr ⟨⟨(m.tick.finishCommit session id m.nextTs txn.writeSet.entries).gc keep,collected next keep⟩,?_,
      extended history m.nextTs txn.writeSet.entries,⟨?_,?_,?_,?_,?_⟩,later',extendedBefore ticking _⟩
    · have kept : Engine.minRetain (m.tick.finishCommit session id m.nextTs txn.writeSet.entries) = keep := rfl
      simp only [Engine.commitToStorage,commitWithDurable,m,prepared,done]
      simp only [m] at kept pruned
      simp [kept,pruned]
    · exact seatedWith (seatedClosed (seatedTick sound.seated ticking) own) _ _
    · exact startsLater sound later'
    · exact fun id' txn' found => sound.staged id' txn' (@activeClosed m.tick session id _ _ found).2
    · rw [pending]
      refine recordedCollected recorded fun ts watch key v w top seen own' beside => ?_
      rcases watch with late' | ⟨id',txn',found,rfl⟩
      · have held : Held next key w := mem_append_right _ beside
        exact not_lt.mpr (top w held (le_trans (recorded.past key w (recorded.held key w held)) late'))
      · obtain ⟨differs,open'⟩ := @activeClosed m.tick session id _ _ found
        have spared := spares _ (memIff.mpr open') (by rw [own]; simpa using differs)
        rw [pending] at spared
        exact sparesSafe sound ticking persisted (sound.starts id' txn' open') spared top seen own' beside
    · exact mirroredCollected (mirroredPending sound.mirrored (nextTsPositive ticking) past ascending
        (fun w mem => (staged w mem).2) persisted) persisted.versioned keep

theorem continuesStep (sound : Sound db history) {statement : Statement} (calm : Calm db statement) {next}
    (done : step db statement = some next) : Continues db.engine.manager history next := by
  obtain rfl := some.inj done
  cases statement with
  | begin => exact continuesBegin sound calm
  | read _ key =>
    exact continuesWithTxn (f := fun txn => ((),txn.recordRead key)) sound (fun _ => rfl) (fun _ => rfl)
      fun _ _ mem => .inl mem
  | write session =>
    obtain ⟨ticking,storable,searchable,absent⟩ := calm
    cases own : db.engine.manager.sessions.find session with
    | some =>
      simp only [perform,own]
      refine continuesWithTxn sound (fun _ => rfl) (fun _ => rfl) fun txn w mem => ?_
      rcases memInsertIn mem with rfl | old
      · exact .inr ⟨storable,searchable⟩
      · exact .inl old
    | none =>
      obtain ⟨engine,ran,continues⟩ := continuesAutocommit sound ticking storable (absent own)
      simp only [perform,own,ran]
      exact continues
  | commit _ late =>
    rcases continuesCommit sound calm.1 late calm.2 with ⟨_,failed⟩ | ⟨_,ran,continues⟩
    · simp only [perform,failed]
      exact continuesSame sound
    · simp only [perform,ran]
      exact continues
  | rollback => exact continuesRollback sound

theorem continuesRun (before : Continues m history db)
    (calm : Admissible step Calm db statements) (done : run step db statements = some now) : Continues m history now := by
  have preserved : ∀ s e next, Continues m history s → Calm s e → step s e = some next → Continues m history next := by
    rintro s e _ ⟨_,sound,later,same⟩ calm one
    obtain ⟨last,sound',later',same'⟩ := continuesStep sound calm one
    exact ⟨last,sound',laterTrans later later',fun key v early =>
      (same' key v (le_trans early later.clock)).trans (same key v early)⟩
  exact runInvariant preserved before calm done

end

theorem snapshotReadsStable {config : LsmConfig} {before during : List Statement} {start now : Db} {session : UInt64}
    {key : Bytes} {txn : Transaction} (reached : run step (opened config) before = some start)
    (idle : start.engine.manager.sessions.find session = none)
    (done : run step start (.begin session :: during) = some now)
    (calm : Admissible step Calm (opened config) (before ++ .begin session :: during))
    (same : now.engine.manager.sessions.find session = some start.engine.manager.nextId)
    (inside : current now.engine.manager session = some txn) (unwritten : txn.writeSet.find key = none)
    (findable : Findable now.engine.tree key) (alone : Alone now.engine.manager.mvcc key) :
    ∃ store, TxnOverlayStore.forSession now.engine session = .ok store ∧ store.get key = .ok (start.contents key) ∧
      ∀ sorter low high, outside (some (low,high)) key = false → (high = [] → key < List.replicate 64 255) →
        ∃ pairs, store.range sorter low high = .ok pairs ∧
          ∀ value, (key,value) ∈ pairs ↔ start.contents key = some value := by
  obtain ⟨calmBefore,calmDuring⟩ := admissibleSplit reached calm
  obtain ⟨_,sound,-,-⟩ := continuesRun (continuesSame (soundOpened config)) calmBefore reached
  have ticking : Ticking start.engine.manager := calmDuring.1
  let begun : Db := ⟨⟨start.engine.manager.started session,start.engine.tree⟩,start.contents⟩
  have first : step start (.begin session) = some begun := by
    simp only [step,perform,TxnManager.begin,idle]
    rfl
  obtain ⟨_,one,more⟩ := runCons done
  cases some.inj (first.symm.trans one)
  obtain ⟨history',sound',later,early⟩ := continuesRun (continuesSame (soundStarted sound ticking session))
    (calmDuring.2 _ first) more
  obtain ⟨_,own,active⟩ := currentIff.mp inside
  cases some.inj (own.symm.trans same)
  have clock : (start.engine.manager.started session).oracle = start.engine.manager.nextTs := (nextTsTicking ticking).2
  have begins := startKept sound.seated ticking later active
  have committed : Reading (fun v => history' key v ∧ v.commitTs ≤ txn.startTs) (start.contents key) := by
    rw [begins]
    exact contentsAt sound ticking fun v past => early key v (clock.symm ▸ past)
  obtain ⟨store,value,opens,base,read,reading⟩ := storeReads sound'.seated sound'.mirrored sound'.recorded.versioned
    inside unwritten findable alone
  obtain rfl := readingRecorded sound'.recorded (.inr ⟨_,txn,active,rfl⟩) committed reading
  refine ⟨store,opens,read,fun sorter low high bounds open' => ?_⟩
  obtain ⟨merged,scan,found⟩ := storeRangeShows findable.named
    (base.symm ▸ ownAlike (versionedOwn sound'.recorded.versioned findable)) bounds open' sorter
  refine ⟨merged.entries,scan,fun value => (found value).trans ?_⟩
  rw [read,Except.ok.injEq]

def setUp : List Statement := [.write 0 [97] (.put [1]),.write 0 [97] (.put [2])]

def committing : List Statement := [.begin 2,.write 2 [98] (.put [3]),.commit 2 false]

theorem snapshotStaysOverCommit : ∃ start now store, run step (opened .default) setUp = some start ∧
    run step start (.begin 1 :: committing) = some now ∧ TxnOverlayStore.forSession now.engine 1 = .ok store ∧
    store.get [97] = .ok (some [2]) ∧ ∀ sorter, ∃ pairs, store.range sorter [] [98] = .ok pairs ∧ ([97],[2]) ∈ pairs := by
  obtain ⟨start,reached,idle,contents,now,done,same,inside,findable,alone⟩ : ∃ start ∈ run step (opened .default) setUp,
      start.engine.manager.sessions.find 1 = none ∧ start.contents [97] = some [2] ∧
      ∃ now ∈ run step start (.begin 1 :: committing), now.engine.manager.sessions.find 1 = some start.engine.manager.nextId ∧
        current now.engine.manager 1 = some (.new 1 3) ∧ Findable now.engine.tree [97] ∧
        Alone now.engine.manager.mvcc [97] := by decide +kernel
  have calm : Admissible step Calm (opened .default) (setUp ++ .begin 1 :: committing) := by decide +kernel
  obtain ⟨store,opens,read,scans⟩ := snapshotReadsStable reached idle done calm same inside rfl findable alone
  refine ⟨start,now,store,reached,done,opens,contents ▸ read,fun sorter => ?_⟩
  obtain ⟨pairs,scan,found⟩ := scans sorter [] [98] (by decide) (by decide)
  exact ⟨pairs,scan,(found [2]).mpr contents⟩

def readAt (session : UInt64) (key : Bytes) (db : Db) : Option (Except Fault (Option Bytes)) :=
  (TxnOverlayStore.forSession db.engine session).toOption.map fun store => store.get key

/- What follows the start of session 1: a second write of [97] and a commit of session 2,
which prunes the version that session 1 reads. -/
def overwritten : List Statement := [.write 0 [97] (.put [2]),.begin 2,.write 2 [98] (.put [3]),.commit 2 false]

theorem commitPrunesReadVersion :
    (run step (opened .default) [.write 0 [97] (.put [1])]).map (fun start => start.contents [97]) = some (some [1]) ∧
      (run step (opened .default) [.write 0 [97] (.put [1]),.begin 1]).map (readAt 1 [97]) = some (some (.ok (some [1]))) ∧
      (run step (opened .default) ([.write 0 [97] (.put [1])] ++ .begin 1 :: overwritten)).map (fun now =>
        (now.engine.manager.sessions.find 1,(current now.engine.manager 1).map fun txn => txn.writeSet.find [97],
          readAt 1 [97] now)) = some (some 1,some none,some (.ok none)) := by
  decide +kernel

end NoeDB.TxnSnapshot
