import NoeDB.Execution
import NoeDB.TxnSessions
import Mathlib.Data.List.Permutation

/-! Runs of the transaction manager and serial orders of the transactions that commit in
them. What a transaction has read and written is recorded beside the manager. -/
namespace NoeDB.TxnSerial
open ByteString OrderedTable StorageTypes BestSoFar LatestItem MvccTable MvccMemTable Transactions TxnManager TxnSessions List Table Prod Function

inductive Call where
  | begin (session : UInt64)
  | get (session : UInt64) (key : Bytes)
  | put (session : UInt64) (key value : Bytes)
  | delete (session : UInt64) (key : Bytes)
  | commit (session : UInt64) (late : Bool)
  | rollback (session : UInt64)
  deriving DecidableEq

inductive Op where
  | read (key : Bytes) (result : Option Bytes)
  | write (key : Bytes) (op : WriteOp)
  deriving DecidableEq

structure Traced where
  manager : TxnManager
  running : UInt64 → List Op
  committed : List (List Op)

namespace Traced

def fresh : Traced := ⟨.new,fun _ => [],[]⟩

def note (t : Traced) (session : UInt64) (op : Op) : Traced :=
  {t with running := Function.update t.running session (t.running session ++ [op])}

def stage (t : Traced) (session : UInt64) (key : Bytes) (op : WriteOp) : Traced :=
  match t.manager.withTxn session fun txn => ((),txn.write key op) with
  | (.ok _,next) => {t with manager := next}.note session (.write key op)
  | (.error _,next) => {t with manager := next}

def perform (t : Traced) : Call → Traced
  | .begin session =>
      match t.manager.begin session with
      | (.ok _,next) => {t with manager := next, running := Function.update t.running session []}
      | (.error _,next) => {t with manager := next}
  | .get session key =>
      match t.manager.get session key with
      | (.ok result,next) => {t with manager := next}.note session (.read key result)
      | (.error _,next) => {t with manager := next}
  | .put session key value => t.stage session key (.put value)
  | .delete session key => t.stage session key .delete
  | .commit session late =>
      match t.manager.commit session late with
      | (.ok _,next) => {t with manager := next, committed := t.committed ++ [t.running session]}
      | (.error _,next) => {t with manager := next}
  | .rollback session => {t with manager := (t.manager.rollback session).2}

end Traced

/- Every call returns, with a result or an error. -/
def step (t : Traced) (call : Call) : Option Traced := some (t.perform call)

def replay (map : Contents) : List Op → Option Contents
  | [] => some map
  | .read key result :: rest => if map key = result then replay map rest else none
  | .write key op :: rest => replay (Function.update map key op.value) rest

def newest (mvcc : MvccMemTable) (key : Bytes) : Option Version :=
  bestOf (fun _ => true) Version.commitTs ((mvcc.data.entries.filter fun e => decodeUserKey e.1 = key).map Prod.snd)

def SerialAs (t : Traced) (order : List (List Op)) : Prop :=
  ∃ final, replay (fun _ => none) order.flatten = some final ∧
    ∀ key, final key = (newest t.manager.mvcc key).bind Lsm.shown

def Serializable (t : Traced) : Prop := ∃ order, order.Perm t.committed ∧ SerialAs t order

/- A read key stands alone in the version table. A transaction that has written commits
only if nobody has committed a key it has read since it began. -/
def Validated (t : Traced) (call : Call) : Prop :=
  Ticking t.manager ∧ match call with
    | .get _ key => Alone t.manager.mvcc key
    | .commit session _ => ∀ txn ∈ current t.manager session, txn.writeSet = .empty ∨ ∀ key ∈ txn.readSet,
        ∀ e ∈ t.manager.mvcc.data.entries, decodeUserKey e.1 = key → e.2.commitTs ≤ txn.startTs
    | _ => True

instance (t call) : Decidable (Validated t call) := by cases call <;> unfold Validated <;> infer_instance

def lastWrite (ops : List Op) (key : Bytes) : Option WriteOp :=
  ops.foldl (fun last op =>
    match op with
    | .read _ _ => last
    | .write k w => if k = key then some w else last) none

def overlaid (map : Contents) (ops : List Op) : Contents := fun key =>
  match lastWrite ops key with
  | some w => w.value
  | none => map key

inductive Saw (seen : Bytes → Option Bytes → Prop) : List Op → Prop where
  | nil : Saw seen []
  | own {ops key w} (before : Saw seen ops) (written : lastWrite ops key = some w) :
      Saw seen (ops ++ [.read key w.value])
  | other {ops key value} (before : Saw seen ops) (unwritten : lastWrite ops key = none) (found : seen key value) :
      Saw seen (ops ++ [.read key value])
  | write {ops} (before : Saw seen ops) (key : Bytes) (w : WriteOp) : Saw seen (ops ++ [.write key w])

section
variable {map : Contents} {ops : List Op} {key : Bytes}

theorem replayAppend (first second) :
    replay map (first ++ second) = (replay map first).bind fun mid => replay mid second := by
  induction first generalizing map with
  | nil => rfl
  | cons op _ ih =>
    cases op with
    | read =>
      simp only [cons_append,replay,ih]
      split <;> rfl
    | write => exact ih

@[simp] theorem lastWriteRead (k result) : lastWrite (ops ++ [.read k result]) key = lastWrite ops key := by
  simp [lastWrite]

@[simp] theorem lastWriteWrite (k w) :
    lastWrite (ops ++ [.write k w]) key = if k = key then some w else lastWrite ops key := by
  simp [lastWrite]

theorem sawMono (weaker : ∀ key value, seen key value → other key value) (saw : Saw seen ops) : Saw other ops := by
  induction saw with
  | nil => exact .nil
  | own _ written ih => exact .own ih written
  | other _ unwritten found ih => exact .other ih unwritten (weaker _ _ found)
  | write _ key w ih => exact .write ih key w

theorem replaySaw (saw : Saw (fun key value => map key = value) ops) : replay map ops = some (overlaid map ops) := by
  induction saw with
  | nil => rfl
  | @own ops key w before written ih =>
    have same : overlaid map (ops ++ [.read key w.value]) = overlaid map ops := by
      funext k
      simp [overlaid,lastWriteRead]
    have value : overlaid map ops key = w.value := by simp [overlaid,written]
    rw [replayAppend,ih,Option.bind_some,same,replay,if_pos value]
    rfl
  | @other ops key value before unwritten found ih =>
    have same : overlaid map (ops ++ [.read key value]) = overlaid map ops := by
      funext k
      simp [overlaid,lastWriteRead]
    have read : overlaid map ops key = value := by simp [overlaid,unwritten,found]
    rw [replayAppend,ih,Option.bind_some,same,replay,if_pos read]
    rfl
  | @write ops before key w ih =>
    rw [replayAppend,ih,Option.bind_some,replay,replay]
    refine congrArg some (funext fun k => ?_)
    simp only [overlaid,lastWriteWrite,update_apply,eq_comm (a := k)]
    split <;> rfl

end

/- Where the committed transactions stand in time: writers at their commit, the others at
their start. -/
abbrev Timeline := Table CommitTs (List Op)

structure Open (t : Traced) (timeline : Timeline) (session : UInt64) (txn : Transaction) : Prop where
  past : txn.startTs ≤ t.manager.oracle
  unplaced : timeline.find txn.startTs = none
  staged : ∀ key, txn.writeSet.find key = lastWrite (t.running session) key
  saw : Saw (fun key value => key ∈ txn.readSet ∧
    Reading (fun v => t.manager.mvcc.Has key v ∧ v.commitTs ≤ txn.startTs) value) (t.running session)

structure Ordered (t : Traced) (timeline : Timeline) : Prop where
  seated : Seated t.manager
  settled : Settled t.manager.mvcc
  perm : (timeline.entries.map Prod.snd).Perm t.committed
  past : ∀ ts ops, timeline.find ts = some ops → ts ≤ t.manager.oracle
  writes : ∀ ts ops, timeline.find ts = some ops → ∀ key v, v.commitTs = ts →
    (t.manager.mvcc.Has key v ↔ ∃ w, lastWrite ops key = some w ∧ v = w.version ts)
  known : ∀ key v, t.manager.mvcc.Has key v → ∃ ops, timeline.find v.commitTs = some ops
  reads : ∀ ts ops, timeline.find ts = some ops →
    Saw (fun key value => Reading (fun v => t.manager.mvcc.Has key v ∧ v.commitTs < ts) value) ops
  opened : ∀ session txn, current t.manager session = some txn → Open t timeline session txn
  apart : ∀ session other txn txn', current t.manager session = some txn → current t.manager other = some txn' →
    txn.startTs = txn'.startTs → session = other

theorem orderedFresh : Ordered .fresh .empty where
  seated := seatedNew
  settled := settledNew
  perm := .refl _
  past _ _ found := nomatch found
  writes _ _ found := nomatch found
  known _ _ found := nomatch found
  reads _ _ found := nomatch found
  opened _ _ found := nomatch found
  apart _ _ _ _ found := nomatch found

section
variable {t : Traced} {timeline : Timeline}

theorem readingHeld (within : ∀ v, versions v → t.manager.mvcc.Has key v) (first : Reading versions value)
    (second : Reading versions other) : value = other :=
  readingUnique (fun v w left right => hasSingle (within v left) (within w right)) first second

section
variable {done rest : List (CommitTs × List Op)} {ts : CommitTs} {ops : List Op} {map : Contents} {key : Bytes}
variable (ordered : Ordered t timeline) (whole : timeline.entries = done ++ (ts,ops) :: rest)
include ordered whole

theorem doneEarlier (held : t.manager.mvcc.Has key v) : v.commitTs ∈ done.map fst ↔ v.commitTs < ts := by
  have ascending : (done ++ (ts,ops) :: rest).Pairwise fun a b => a.1 < b.1 := whole ▸ timeline.ascending
  obtain ⟨-,suffix,order⟩ := pairwise_append.mp ascending
  constructor
  · intro mem
    obtain ⟨e,inside,same⟩ := mem_map.mp mem
    exact same ▸ order e inside (ts,ops) mem_cons_self
  · intro less
    obtain ⟨ops',found⟩ := ordered.known key v held
    have mem : (v.commitTs,ops') ∈ done ++ (ts,ops) :: rest := whole ▸ memIff.mpr found
    rcases mem_append.mp mem with left | right
    · exact mem_map.mpr ⟨_,left,rfl⟩
    · rcases mem_cons.mp right with same | later
      · have stamps : v.commitTs = ts := congrArg fst same
        exact absurd less (stamps ▸ lt_irrefl _)
      · exact absurd less (lt_asymm ((pairwise_cons.mp suffix).1 _ later))

variable (before : Reading (fun v => t.manager.mvcc.Has key v ∧ v.commitTs ∈ done.map Prod.fst) (map key))
include before

theorem doneAfter : Reading (fun v => t.manager.mvcc.Has key v ∧ v.commitTs ∈ (done ++ [(ts,ops)]).map fst)
    (overlaid map ops key) := by
  have here : timeline.find ts = some ops := memIff.mp (by simp [whole])
  have writes := ordered.writes ts ops here key
  simp only [map_append,map_cons,map_nil,mem_append,mem_singleton]
  cases written : lastWrite ops key with
  | some w =>
    have held := (writes (w.version ts) (by simp)).mpr ⟨w,written,rfl⟩
    refine ⟨some (w.version ts),latestAbove ⟨held,.inr (by simp)⟩ ?_,by simp [overlaid,written]⟩
    rintro v ⟨held',mem | same⟩
    · exact .inr (by simpa using (doneEarlier ordered whole held').mp mem)
    · exact .inl (hasSingle held' held (by simp [same]))
  | none =>
    have value : overlaid map ops key = map key := by simp [overlaid,written]
    rw [value]
    refine (readingCongr fun v => and_congr_right fun held => ⟨.inl,fun mem => ?_⟩).mp before
    refine mem.resolve_right fun same => ?_
    obtain ⟨w,found,-⟩ := (writes v same).mp held
    rw [written] at found
    cases found

end

theorem replayTimeline (ordered : Ordered t timeline) {done rest} (whole : timeline.entries = done ++ rest) {map}
    (before : ∀ key, Reading (fun v => t.manager.mvcc.Has key v ∧ v.commitTs ∈ done.map fst) (map key)) :
    ∃ final, replay map (rest.map snd).flatten = some final ∧
      ∀ key, Reading (fun v => t.manager.mvcc.Has key v) (final key) := by
  induction rest generalizing done map with
  | nil =>
    refine ⟨map,rfl,fun key => (readingCongr fun v => ?_).mp (before key)⟩
    rw [append_nil] at whole
    refine and_iff_left_of_imp fun held => ?_
    obtain ⟨ops,found⟩ := ordered.known key v held
    exact whole ▸ memKeys.mpr ⟨ops,found⟩
  | cons head rest ih =>
    obtain ⟨ts,ops⟩ := head
    have here : timeline.find ts = some ops := memIff.mp (by simp [whole])
    have saw : Saw (fun key value => map key = value) ops := by
      refine sawMono (fun key value seen => ?_) (ordered.reads ts ops here)
      refine readingHeld (fun v both => both.1) (before key) ((readingCongr fun v => ?_).mp seen)
      exact and_congr_right fun held => (doneEarlier ordered whole held).symm
    have split : timeline.entries = (done ++ [(ts,ops)]) ++ rest := by simp [whole]
    obtain ⟨final,replayed,left⟩ := ih split fun key => doneAfter ordered whole (before key)
    refine ⟨final,?_,left⟩
    rw [map_cons,flatten_cons,replayAppend,replaySaw saw,Option.bind_some,replayed]

theorem newestReading (settled : Settled t.manager.mvcc) (key) :
    Reading (fun v => t.manager.mvcc.Has key v) ((newest t.manager.mvcc key).bind Lsm.shown) := by
  have versions : ∀ v, v ∈ (t.manager.mvcc.data.entries.filter fun e => decodeUserKey e.1 = key).map snd ↔
      t.manager.mvcc.Has key v := by
    intro v
    simp only [mem_map,mem_filter,decide_eq_true_eq]
    constructor
    · rintro ⟨⟨_,_⟩,⟨mem,rfl⟩,rfl⟩
      exact hasKey settled (memIff.mp mem)
    · intro held
      exact ⟨(_,v),⟨memIff.mpr held,decodeInternalKey _ _⟩,rfl⟩
  refine ⟨_,(latestCongr fun v => ?_).mp bestLatest,rfl⟩
  rw [versions]
  exact and_iff_left rfl

theorem orderedSerial (ordered : Ordered t timeline) : Serializable t := by
  have empty : ∀ key, Reading (fun v => t.manager.mvcc.Has key v ∧
      v.commitTs ∈ ([] : List (CommitTs × List Op)).map fst) none :=
    fun key => ⟨none,(fun v both => nomatch both.2),rfl⟩
  obtain ⟨final,replayed,left⟩ := @replayTimeline t timeline ordered [] timeline.entries rfl _ empty
  refine ⟨_,ordered.perm,final,replayed,fun key => ?_⟩
  exact readingHeld (fun v held => held) (left key) (newestReading ordered.settled key)

end

section
variable {t next : Traced} {timeline : Timeline} {session : UInt64} {txn : Transaction} {key : Bytes}

theorem orderedKept (ordered : Ordered t timeline) (mvcc : next.manager.mvcc = t.manager.mvcc)
    (committed : next.committed = t.committed) (clock : t.manager.oracle ≤ next.manager.oracle)
    (seated : Seated next.manager)
    (opened : ∀ session txn, current next.manager session = some txn → Open next timeline session txn)
    (apart : ∀ session other txn txn', current next.manager session = some txn →
      current next.manager other = some txn' → txn.startTs = txn'.startTs → session = other) :
    Ordered next timeline where
  seated := seated
  settled := mvcc ▸ ordered.settled
  perm := committed ▸ ordered.perm
  past ts ops found := le_trans (ordered.past ts ops found) clock
  writes := mvcc ▸ ordered.writes
  known := mvcc ▸ ordered.known
  reads := mvcc ▸ ordered.reads
  opened := opened
  apart := apart

theorem openKept (opened : Open t timeline session txn) (mvcc : next.manager.mvcc = t.manager.mvcc)
    (clock : t.manager.oracle ≤ next.manager.oracle) (running : next.running session = t.running session) :
    Open next timeline session txn where
  past := le_trans opened.past clock
  unplaced := opened.unplaced
  staged := running ▸ opened.staged
  saw := by
    rw [running,mvcc]
    exact opened.saw

theorem beginOrdered (ordered : Ordered t timeline) (ticking : Ticking t.manager) (session) :
    Ordered (t.perform (.begin session)) timeline := by
  cases found : t.manager.sessions.find session with
  | some =>
    simp only [Traced.perform,TxnManager.begin,found]
    exact ordered
  | none =>
    simp only [Traced.perform,TxnManager.begin,found]
    have clock : (t.manager.started session).oracle = t.manager.nextTs := (nextTsTicking ticking).2
    have later : t.manager.oracle ≤ (t.manager.started session).oracle := clock ▸ le_of_lt (tickAbove ticking)
    have inside := @currentStarted _ session ordered.seated
    have started : ∀ other txn, current t.manager other = some txn → txn.startTs < t.manager.nextTs :=
      fun other txn old => lt_of_le_of_lt (ordered.opened other txn old).past (tickAbove ticking)
    refine orderedKept ordered rfl rfl later (seatedStarted ordered.seated ticking) ?_ ?_
    · intro other txn current'
      rw [inside] at current'
      split at current'
      · rename_i same
        cases Option.some.inj current'
        subst same
        have unplaced : timeline.find t.manager.nextTs = none := by
          cases placed : timeline.find t.manager.nextTs with
          | none => rfl
          | some ops => exact absurd (ordered.past _ ops placed) (not_le.mpr (tickAbove ticking))
        refine ⟨le_of_eq clock.symm,unplaced,?_,?_⟩
        · intro _
          simp [lastWrite,Transaction.new]
        · simpa using Saw.nil
      · rename_i differs
        refine openKept (ordered.opened other txn current') rfl later ?_
        exact update_of_ne (Ne.symm differs) _ _
    · intro first second txn txn' left right same
      rw [inside] at left right
      split at left <;> split at right
      · rename_i one two
        exact one.symm.trans two
      · cases Option.some.inj left
        exact absurd same (ne_of_lt (started second txn' right)).symm
      · cases Option.some.inj right
        exact absurd same (ne_of_lt (started first txn left))
      · exact ordered.apart first second txn txn' left right same

theorem notedOrdered (ordered : Ordered t timeline) {id} (own : t.manager.sessions.find session = some id)
    (inside : current t.manager session = some txn) {changed ssi}
    (start : changed.startTs = txn.startTs) (running : changed.state = .active)
    (staged : ∀ key, changed.writeSet.find key = lastWrite (t.running session ++ [op]) key)
    (saw : Saw (fun key value => key ∈ changed.readSet ∧
      Reading (fun v => t.manager.mvcc.Has key v ∧ v.commitTs ≤ txn.startTs) value) (t.running session ++ [op])) :
    Ordered (Traced.note {t with manager := {t.manager.changed id changed with ssi := ssi}} session op) timeline := by
  have now : ∀ other, current {t.manager.changed id changed with ssi := ssi} other =
      if session = other then some changed else current t.manager other := currentChanged ordered.seated own
  have starts : ∀ other txn', current {t.manager.changed id changed with ssi := ssi} other = some txn' →
      ∃ old, current t.manager other = some old ∧ txn'.startTs = old.startTs := by
    intro other txn' current'
    rw [now] at current'
    split at current'
    · rename_i same
      cases Option.some.inj current'
      exact ⟨txn,same ▸ inside,start⟩
    · exact ⟨txn',current',rfl⟩
  refine orderedKept ordered rfl rfl (le_refl _) (seatedWith (seatedChanged ordered.seated own running) _ ssi) ?_ ?_
  · intro other txn' current'
    rw [show current (Traced.note {t with manager := {t.manager.changed id changed with ssi := ssi}} session op).manager
      other = _ from now other] at current'
    split at current'
    · rename_i same
      cases Option.some.inj current'
      subst same
      have opened := ordered.opened session txn inside
      have ops : (Traced.note {t with manager := {t.manager.changed id changed with ssi := ssi}} session op).running
        session = t.running session ++ [op] := update_self _ _ _
      refine ⟨start ▸ opened.past,start ▸ opened.unplaced,?_,?_⟩
      · rw [ops]
        exact staged
      · rw [ops,start]
        exact saw
    · rename_i differs
      refine openKept (ordered.opened other txn' current') rfl (le_refl _) ?_
      exact update_of_ne (Ne.symm differs) _ _
  · intro first second txn' txn'' left right same
    obtain ⟨old,before,equal⟩ := starts first txn' left
    obtain ⟨old',before',equal'⟩ := starts second txn'' right
    exact ordered.apart first second old old' before before' (equal ▸ equal' ▸ same)

theorem getOrdered (ordered : Ordered t timeline) (alone : Alone t.manager.mvcc key) (session) :
    Ordered (t.perform (.get session key)) timeline := by
  cases inside : current t.manager session with
  | none =>
    simp only [Traced.perform,TxnManager.get,(currentNone ordered.seated).mp inside]
    exact ordered
  | some txn =>
    have opened := ordered.opened session txn inside
    obtain ⟨_,_,view,own,snapshot,got⟩ := @getCurrent _ _ _ key ordered.seated inside
    have running : (txn.recordRead key).state = .active := by
      obtain ⟨id',-,active⟩ := currentIff.mp inside
      exact ordered.seated.running id' txn active
    have staged : ∀ result k, (txn.recordRead key).writeSet.find k =
        lastWrite (t.running session ++ [.read key result]) k := by
      intro result k
      rw [lastWriteRead]
      exact opened.staged k
    have saw : Saw (fun k value => k ∈ (txn.recordRead key).readSet ∧
        Reading (fun v => t.manager.mvcc.Has k v ∧ v.commitTs ≤ txn.startTs) value) (t.running session) :=
      sawMono (fun k value seen => ⟨Finset.mem_insert_of_mem seen.1,seen.2⟩) opened.saw
    have written := opened.staged key
    cases ownWrite : txn.writeSet.find key with
    | some w =>
      have result : txn.readOwn key = some w.value := by simp [Transaction.readOwn,ownWrite,Option.map_some]
      simp only [result] at got
      simp only [Traced.perform,got]
      exact notedOrdered ordered own inside rfl running (staged _) (.own saw (written ▸ ownWrite))
    | none =>
      have result : txn.readOwn key = none := by simp [Transaction.readOwn,ownWrite,Option.map_none]
      obtain ⟨_,read,reading⟩ := @getReading _ _ view ordered.settled alone
      simp only [result,read] at got
      simp only [Traced.perform,got]
      refine notedOrdered ordered own inside rfl running (staged _) (.other saw (written ▸ ownWrite) ?_)
      exact ⟨Finset.mem_insert_self _ _,snapshot ▸ reading⟩

theorem stageOrdered (ordered : Ordered t timeline) (session key op) : Ordered (t.stage session key op) timeline := by
  cases inside : current t.manager session with
  | none =>
    simp only [Traced.stage,withTxnOutside ordered.seated _ inside]
    exact ordered
  | some txn =>
    have opened := ordered.opened session txn inside
    obtain ⟨id,own,active,wrote⟩ := withTxnCurrent ordered.seated (fun txn => ((),txn.write key op)) inside
    simp only [Traced.stage,wrote]
    refine notedOrdered ordered own inside rfl (ordered.seated.running id txn active) ?_ (.write opened.saw key op)
    intro k
    rw [lastWriteWrite,← opened.staged k]
    refine (txn.writeSet.findInsert key k op).trans ?_
    congr

theorem rollbackOrdered (ordered : Ordered t timeline) (session) :
    Ordered (t.perform (.rollback session)) timeline := by
  cases own : t.manager.sessions.find session with
  | none =>
    simp only [Traced.perform,rollback,own]
    exact ordered
  | some id =>
    simp only [Traced.perform,rollback,own,abortSettled ordered.settled]
    have now : ∀ other txn', current (t.manager.closed session id) other = some txn' →
        current t.manager other = some txn' := by
      intro other txn' current'
      rw [currentClosed ordered.seated own] at current'
      split at current'
      · cases current'
      · exact current'
    refine orderedKept ordered rfl rfl (le_refl _) (seatedWith (seatedClosed ordered.seated own) _ _) ?_ ?_
    · intro other txn' current'
      exact openKept (ordered.opened other txn' (now other txn' current')) rfl (le_refl _) rfl
    · intro first second txn' txn'' left right
      exact ordered.apart first second txn' txn'' (now first txn' left) (now second txn'' right)

def place (txn : Transaction) (commitTs : CommitTs) : CommitTs :=
  if txn.writeSet = .empty then txn.startTs else commitTs

section
variable (ordered : Ordered t timeline) (ticking : Ticking t.manager) (inside : current t.manager session = some txn)
include ordered ticking inside

theorem hasCommitted : (applyPending t.manager.mvcc t.manager.nextTs txn.writeSet.entries).Has key v ↔
      (∃ w, lastWrite (t.running session) key = some w ∧ v = w.version t.manager.nextTs) ∨
        t.manager.mvcc.Has key v := by
  rw [hasPending txn.writeSet.ascending]
  have staged : findIn key txn.writeSet.entries = lastWrite (t.running session) key :=
    (ordered.opened session txn inside).staged key
  rw [staged]
  refine or_congr_right (and_iff_left_of_imp fun held same => ?_)
  obtain ⟨ops,placed⟩ := ordered.known key v held
  exact absurd (ordered.past _ ops placed) (same ▸ not_le.mpr (tickAbove ticking))

theorem hasBefore (early : v.commitTs < t.manager.nextTs) :
    (applyPending t.manager.mvcc t.manager.nextTs txn.writeSet.entries).Has key v ↔ t.manager.mvcc.Has key v := by
  rw [hasCommitted ordered ticking inside]
  refine or_iff_right ?_
  rintro ⟨w,-,rfl⟩
  simp at early

theorem placeFresh : timeline.find (place txn t.manager.nextTs) = none := by
  unfold place
  split
  · exact (ordered.opened session txn inside).unplaced
  · cases placed : timeline.find t.manager.nextTs with
    | none => rfl
    | some ops => exact absurd (ordered.past _ ops placed) (not_le.mpr (tickAbove ticking))

theorem placeLate : place txn t.manager.nextTs ≤ t.manager.nextTs := by
  unfold place
  split
  · exact le_trans (ordered.opened session txn inside).past (le_of_lt (tickAbove ticking))
  · exact le_refl _

theorem placeApart (differs : session ≠ other)
    (before : current t.manager other = some txn') : place txn t.manager.nextTs ≠ txn'.startTs := by
  unfold place
  split
  · exact fun same => differs (ordered.apart session other txn txn' inside before same)
  · have early := lt_of_le_of_lt (ordered.opened other txn' before).past (tickAbove ticking)
    exact (ne_of_lt early).symm

theorem placeOf (held : (applyPending t.manager.mvcc t.manager.nextTs txn.writeSet.entries).Has key v) :
    place txn t.manager.nextTs = v.commitTs ∨ t.manager.mvcc.Has key v := by
  refine ((hasCommitted ordered ticking inside).mp held).imp_left ?_
  rintro ⟨w,written,rfl⟩
  have filled : txn.writeSet ≠ .empty := by
    intro empty
    rw [← (ordered.opened session txn inside).staged key,empty] at written
    cases written
  rw [place,if_neg filled,WriteOp.versionStamp]

theorem placedWrites (here : v.commitTs = place txn t.manager.nextTs) :
    (applyPending t.manager.mvcc t.manager.nextTs txn.writeSet.entries).Has key v ↔
      ∃ w, lastWrite (t.running session) key = some w ∧ v = w.version (place txn t.manager.nextTs) := by
  rw [hasCommitted ordered ticking inside]
  have absent : ¬t.manager.mvcc.Has key v := by
    intro held
    obtain ⟨_,placed⟩ := ordered.known key v held
    rw [here,placeFresh ordered ticking inside] at placed
    cases placed
  rw [or_iff_left absent]
  unfold place
  split
  · rename_i empty
    have nothing : lastWrite (t.running session) key = none := by
      rw [← (ordered.opened session txn inside).staged key,empty]
      rfl
    simp [nothing]
  · exact Iff.rfl

theorem placedReads (valid : txn.writeSet = .empty ∨ ∀ key ∈ txn.readSet, ∀ e ∈ t.manager.mvcc.data.entries,
      decodeUserKey e.1 = key → e.2.commitTs ≤ txn.startTs) : Saw (fun key value => Reading (fun v =>
      (applyPending t.manager.mvcc t.manager.nextTs txn.writeSet.entries).Has key v ∧
        v.commitTs < place txn t.manager.nextTs) value) (t.running session) := by
  have opened := ordered.opened session txn inside
  refine sawMono (fun key value seen => (readingCongr fun v => ?_).mp seen.2) opened.saw
  have late := placeLate ordered ticking inside
  have same : (applyPending t.manager.mvcc t.manager.nextTs txn.writeSet.entries).Has key v ∧
      v.commitTs < place txn t.manager.nextTs ↔ t.manager.mvcc.Has key v ∧ v.commitTs < place txn t.manager.nextTs :=
    and_congr_left fun early => hasBefore ordered ticking inside (lt_of_lt_of_le early late)
  rw [same]
  refine and_congr_right fun held => ?_
  unfold place
  split
  · refine ⟨fun most => lt_of_le_of_ne most fun equal => ?_,le_of_lt⟩
    obtain ⟨_,placed⟩ := ordered.known key v held
    rw [equal,opened.unplaced] at placed
    cases placed
  · rename_i written
    have unchanged := (valid.resolve_left written) key seen.1 _ (memIff.mpr held) (decodeInternalKey _ _)
    exact iff_of_true unchanged (lt_of_le_of_lt unchanged (lt_of_le_of_lt opened.past (tickAbove ticking)))

end

theorem commitOrdered (ordered : Ordered t timeline) (ticking : Ticking t.manager)
    (valid : ∀ txn ∈ current t.manager session, txn.writeSet = .empty ∨ ∀ key ∈ txn.readSet,
      ∀ e ∈ t.manager.mvcc.data.entries, decodeUserKey e.1 = key → e.2.commitTs ≤ txn.startTs) :
    ∃ timeline, Ordered (t.perform (.commit session late)) timeline := by
  cases prepared : t.manager.prepareCommit session late with
  | mk result =>
    cases result with
    | error =>
      simp only [Traced.perform,commit,commitWithDurable,prepared,prepareCommitFails prepared]
      exact ⟨timeline,ordered⟩
    | ok parts =>
      obtain ⟨id,_,_⟩ := parts
      obtain ⟨own,⟨txn,active,rfl⟩,rfl,rfl⟩ := prepareCommitReturns prepared
      simp only [Traced.perform,commit,commitWithDurable,prepared]
      have inside : current t.manager session = some txn := currentIff.mpr ⟨id,own,active⟩
      have clock : t.manager.tick.oracle = t.manager.nextTs := (nextTsTicking ticking).2
      have after := tickAbove ticking
      have fresh := placeFresh ordered ticking inside
      have seated := seatedTick ordered.seated ticking
      have now : ∀ other txn', current (t.manager.tick.closed session id) other = some txn' →
          session ≠ other ∧ current t.manager other = some txn' := by
        intro other txn' current'
        rw [currentClosed seated own] at current'
        split at current'
        · cases current'
        · rename_i differs
          exact ⟨differs,current'⟩
      refine ⟨timeline.insert (place txn t.manager.nextTs) (t.running session),?_⟩
      exact {
        seated := seatedWith (seatedClosed seated own) _ _
        settled := settledPending ordered.settled (nextTsPositive ticking)
        perm := by
          refine ((insertInPerm fresh (t.running session)).map snd).trans ?_
          exact (ordered.perm.cons _).trans (perm_append_singleton _ _).symm
        past := fun ts ops found => by
          rw [findInsert] at found
          change ts ≤ t.manager.tick.oracle
          rw [clock]
          split at found
          · rename_i same
            exact same ▸ placeLate ordered ticking inside
          · exact le_trans (ordered.past ts ops found) (le_of_lt after)
        writes := fun ts ops found key v here => by
          rw [findInsert] at found
          split at found
          · rename_i same
            cases Option.some.inj found
            subst same
            exact placedWrites ordered ticking inside here
          · have early := lt_of_le_of_lt (ordered.past ts ops found) after
            exact (hasBefore ordered ticking inside (here ▸ early)).trans (ordered.writes ts ops found key v here)
        known := fun key v held => by
          rw [findInsert]
          split
          · exact ⟨_,rfl⟩
          · rename_i elsewhere
            exact ordered.known key v ((placeOf ordered ticking inside held).resolve_left elsewhere)
        reads := fun ts ops found => by
          rw [findInsert] at found
          split at found
          · rename_i same
            cases Option.some.inj found
            subst same
            exact placedReads ordered ticking inside (valid txn inside)
          · have early := lt_of_le_of_lt (ordered.past ts ops found) after
            refine sawMono (fun key value seen => (readingCongr fun v => ?_).mp seen) (ordered.reads ts ops found)
            exact and_congr_left fun below => (hasBefore ordered ticking inside (lt_trans below early)).symm
        opened := fun other txn' current' => by
          obtain ⟨differs,before⟩ := now other txn' current'
          have opened := ordered.opened other txn' before
          have early := lt_of_le_of_lt opened.past after
          refine ⟨?_,?_,opened.staged,?_⟩
          · change txn'.startTs ≤ t.manager.tick.oracle
            exact clock ▸ le_of_lt early
          · rw [findInsert,if_neg (placeApart ordered ticking inside differs before)]
            exact opened.unplaced
          · refine sawMono (fun key value seen => ⟨seen.1,(readingCongr fun v => ?_).mp seen.2⟩) opened.saw
            exact and_congr_left fun below => (hasBefore ordered ticking inside (lt_of_le_of_lt below early)).symm
        apart := fun first second txn' txn'' left right =>
          ordered.apart first second txn' txn'' (now first txn' left).2 (now second txn'' right).2 }

theorem orderedStep (ordered : Ordered t timeline) (valid : Validated t call)
    (done : step t call = some next) : ∃ timeline, Ordered next timeline := by
  cases Option.some.inj done
  obtain ⟨ticking,own⟩ := valid
  cases call with
  | begin session => exact ⟨timeline,beginOrdered ordered ticking session⟩
  | get session => exact ⟨timeline,getOrdered ordered own session⟩
  | put session key value => exact ⟨timeline,stageOrdered ordered session key (.put value)⟩
  | delete session key => exact ⟨timeline,stageOrdered ordered session key .delete⟩
  | commit => exact commitOrdered ordered ticking own
  | rollback session => exact ⟨timeline,rollbackOrdered ordered session⟩

end

theorem validatedRunSerializable {calls : List Call} {t : Traced}
    (valid : Execution.Admissible step Validated .fresh calls) (reached : Execution.run step .fresh calls = some t) :
    Serializable t := by
  have start : ∃ timeline, Ordered .fresh timeline := ⟨_,orderedFresh⟩
  have preserved : ∀ s call next, (∃ timeline, Ordered s timeline) → Validated s call → step s call = some next →
      ∃ timeline, Ordered next timeline := fun s call next ⟨_,ordered⟩ ok done => orderedStep ordered ok done
  obtain ⟨_,ordered⟩ := Execution.runInvariant preserved start valid reached
  exact orderedSerial ordered

def overlapping : List Call :=
  [.begin 1,.put 1 [97] [5],.commit 1 false,.begin 1,.begin 2,.begin 3,.get 1 [97],.put 1 [97] [4],.get 2 [97],
    .get 3 [98],.put 3 [98] [9],.commit 3 false,.commit 1 false,.get 2 [97],.commit 2 false]

theorem overlappingSerializable : ∃ t, Execution.run step .fresh overlapping = some t ∧ t.committed.length = 4 ∧
    Serializable t := by
  have valid : Execution.Admissible step Validated .fresh overlapping := by decide +kernel
  refine ⟨_,rfl,by decide +kernel,validatedRunSerializable valid rfl⟩

def lostUpdate : List Call :=
  [.begin 1,.begin 2,.get 1 [97],.get 2 [97],.put 1 [97] [1],.put 2 [97] [2],.commit 1 false,.commit 2 false]

theorem lostUpdateNotSerializable : ∃ t, Execution.run step .fresh lostUpdate = some t ∧ t.committed.length = 2 ∧
    ¬Serializable t := by
  refine ⟨_,rfl,by decide +kernel,?_⟩
  have ran : ∀ t ∈ Execution.run step .fresh lostUpdate, t.committed =
      [[.read [97] none,.write [97] (.put [1])],[.read [97] none,.write [97] (.put [2])]] := by decide +kernel
  rintro ⟨_,perm,_,replayed,-⟩
  rcases perm_pair.mp perm with rfl | rfl
  · cases replayed
  · cases replayed

end NoeDB.TxnSerial
