import NoeDB.Ddl
import NoeDB.DmlRelations
import NoeDB.RowRecovery
import NoeDB.TxnSnapshot

/-! Runs of the engine over its storage: statements of several sessions in and outside of
transactions, index and table maintenance, and clean reopenings, after which the clock
starts over. -/
namespace NoeDB.EngineRuns
open ByteString Text OrderedTable StorageTypes NewestPerKey Fallible Execution Lsm LsmTree LsmReads LsmGc LsmVersions List TxnSnapshot Option
open Transactions TxnManager TxnSessions TxnStorage Interaction Platform SqlAst RowPack Schema
open TableRegion RowRecovery Dml Ddl DmlRules DmlRows DmlContent DmlRelations

inductive Request where
  | insert (ins : InsertStmt)
  | update (upd : UpdateStmt)
  | delete (del : DeleteStmt)
  | putRow (table row column : String) (value : Bytes)
  | createIndex (table : String) (columns : List String)
  | analyze (table : String)
  | markTable (table : String) (column : Option String)
  | purgeTable (table : String)

def Request.script [Runtime] (schema : SchemaCatalog) (inTxn : Bool) : Request → StoreScript Unit
  | .insert ins => executeInsert schema inTxn ins
  | .update upd => do
      let _ ← executeUpdate schema upd
  | .delete del => do
      let _ ← executeDelete schema inTxn del
  | .putRow table row column value => putKey (rowKey table row column) value
  | .createIndex table columns => Ddl.createIndex table columns
  | .analyze table => Ddl.analyze table
  | .markTable table (some column) => markRowIdColumn table column
  | .markTable table none => unmarkRowIdColumn table
  | .purgeTable table => purgeTableData table

inductive Event where
  | request (session : UInt64) (schema : SchemaCatalog) (request : Request)
  | putPackedRow (table row : String) (columns : List (String × Bytes))
  | tick
  | noteRead (session : UInt64) (key : Bytes)
  | begin (session : UInt64)
  | commit (session : UInt64) (late : Bool)
  | rollback (session : UInt64)
  | reopen (throughput : Bool)

def configOf (throughput : Bool) : LsmConfig := if throughput then .throughput else .default

def txnOf (engine : Engine) (session : UInt64) : Option UInt64 :=
  if (engine.manager.sessions.find session).isSome then some session else none

section
variable [Runtime]

def perform (engine : Engine) : Event → Engine
  | .request session schema request =>
      (play (handle (txnOf engine session)) (request.script schema (txnOf engine session).isSome) engine).2
  | .putPackedRow table row columns => (play (handle none) (writePackedRow table row columns) engine).2
  | .tick => {engine with manager := engine.manager.tick}
  | .noteRead session key =>
      {engine with manager := (engine.manager.withTxn session fun txn => ((),txn.recordRead key)).2}
  | .begin session => {engine with manager := (engine.manager.begin session).2}
  | .commit session late => (engine.commitToStorage (fun _ => none) session late).2
  | .rollback session => {engine with manager := (engine.manager.rollback session).2}
  | .reopen throughput =>
      match openTree engine.tree.dir (configOf throughput) with
      | .ok tree => ⟨.new,tree⟩
      | .error _ => engine

def landed (txn : Option UInt64) : StoreOp → Option (Bytes × WriteOp)
  | .put key value => if txn = none then some (key,.put value) else none
  | .delete key => if txn = none then some (key,.delete) else none
  | .rawPut key value => some (key,.put value)
  | .rawDelete key => some (key,.delete)
  | _ => none

def writesOf (engine : Engine) : Event → List (Bytes × WriteOp)
  | .request session schema request =>
      (trace (handle (txnOf engine session)) (request.script schema (txnOf engine session).isSome) engine).filterMap
        (landed (txnOf engine session))
  | .putPackedRow table row columns =>
      (trace (handle none) (writePackedRow table row columns) engine).filterMap (landed none)
  | .commit session late =>
      match engine.commitToStorage (fun _ => none) session late with
      | (.ok _,_) => TxnSnapshot.pendingOf engine.manager session
      | (.error _,_) => []
  | _ => []

structure Logged where
  engine : Engine
  writes : List (Bytes × WriteOp)

def opened (throughput : Bool) : Logged := ⟨⟨.new,fresh (configOf throughput)⟩,[]⟩

def step (s : Logged) (event : Event) : Option Logged :=
  some ⟨perform s.engine event,s.writes ++ writesOf s.engine event⟩

end

def lastWrite (writes : List (Bytes × WriteOp)) (key : Bytes) : Option Bytes :=
  writes.foldl (fun value w => if w.1 = key then w.2.value else value) none

def LandsAt (tree : LsmTree) (ts : CommitTs) (write : Bytes × WriteOp) : Prop :=
  write.1 ≠ [] ∧ write.1.length+(write.2.version 1).value.length+39 < 2^32 ∧
    (Reserved write.1 ∨ TableKey write.1 ∧ Early ts ∧ Above tree write.1 ts)

def Lands (engine : Engine) (key : Bytes) (op : WriteOp) : Prop := LandsAt engine.tree engine.manager.nextTs (key,op)

def Proper (txn : Option UInt64) (engine : Engine) : StoreOp → Prop
  | .put key value => txn = none → Lands engine key (.put value)
  | .delete key => txn = none → Lands engine key .delete
  | .rawPut key value => key ≠ [] ∧ Reserved key ∧ key.length+value.length+13 < 2^32
  | .rawDelete key => key ≠ [] ∧ key.length+39 < 2^32 ∧ (Reserved key ∨
      TableKey key ∧ ∀ version, Held engine.tree key version → version.commitTs.toNat+1 < 2^56)
  | _ => True

def Rising [Runtime] (s : Logged) : Event → Prop
  | .request session schema request => Throughout (Proper (txnOf s.engine session)) (handle (txnOf s.engine session))
      (request.script schema (txnOf s.engine session).isSome) s.engine
  | .putPackedRow table row columns => Throughout (Proper none) (handle none) (writePackedRow table row columns) s.engine
  | .commit session _ => ∀ w ∈ TxnSnapshot.pendingOf s.engine.manager session, Lands s.engine w.1 w.2
  | _ => True

section
variable {rows : Rows} {engine : Engine}

def landing (rows : Rows) (write : Bytes × WriteOp) : Rows :=
  if Reserved write.1 then rows else written rows write.1 write.2

def rowsOf (writes : List (Bytes × WriteOp)) : Rows := writes.foldl landing .empty

theorem rowsFind (outer : ¬Reserved key) (writes) : (rowsOf writes).find key = lastWrite writes key := by
  unfold rowsOf lastWrite
  induction writes using List.reverseRecOn with
  | nil => rfl
  | append_singleton _ w ih =>
    rw [foldl_append,foldl_append,foldl_cons,foldl_nil,foldl_cons,foldl_nil,← ih]
    unfold landing
    split
    · rename_i reserved
      have other : w.1 ≠ key := fun same => outer (same ▸ reserved)
      rw [if_neg other]
    · exact findWritten _ _ _ _

theorem stampPositive (m : TxnManager) : m.nextTs ≠ 0 := by
  have least : (1 : CommitTs) ≤ m.nextTs := le_max_right _ _
  rintro zero
  rw [zero] at least
  exact absurd least (by decide)

def Adds (tree next : LsmTree) (key : Bytes) (version : Version) : Prop :=
  ∀ other v, TableKey other → Held next other v → Held tree other v ∨ (other = key ∧ v = version)

theorem versionLands (committed : ts ≠ 0) (holds : Holds rows tree) (lands : LandsAt tree ts (key,op)) :
    ∃ next, Returns (putVersion key (op.version ts)) tree () next ∧ Holds (landing rows (key,op)) next ∧
      Adds tree next key (op.version ts) ∧
      ∀ other : Bytes × WriteOp, other.1 ≠ key → LandsAt tree ts other → LandsAt next ts other := by
  obtain ⟨named,short,place⟩ := lands
  have short' : key.length+(op.version ts).value.length+39 < 2^32 := by cases op <;> exact short
  rcases place with reserved | ⟨own,early,above⟩
  · obtain ⟨next,done,after,same⟩ := putVersionHolds holds named reserved (by simpa using committed) short'
    refine ⟨next,done,by simpa only [landing,if_pos reserved] using after,fun _ _ own held => .inl ((same.held own).mp held),fun other differs lands => ?_⟩
    refine ⟨lands.1,lands.2.1,lands.2.2.imp id fun place => ⟨place.1,place.2.1,fun v held => place.2.2 v ?_⟩⟩
    exact (same.held place.1).mp held
  · obtain ⟨next,done,after,records⟩ := putVersionRows holds own committed early short' above
    have adds : Adds tree next key (op.version ts) := by
      intro other v own' held
      rcases (records _ (mt (recordReserved own'.named).mp own'.outer)).mp held with new | old
      · exact .inr (recordInjective new)
      · exact .inl old
    refine ⟨next,done,by simpa only [landing,if_neg own.outer] using after,adds,fun other differs lands => ?_⟩
    refine ⟨lands.1,lands.2.1,lands.2.2.imp id fun place => ⟨place.1,place.2.1,fun v held => place.2.2 v ?_⟩⟩
    rcases adds other.1 v place.1 held with kept | ⟨same,-⟩
    · exact kept
    · exact absurd same differs

theorem autocommitHolds (holds : Holds rows engine.tree) (lands : Lands engine key op) :
    ∃ tree, engine.autocommit key op = (.ok (),⟨engine.manager.tick,tree⟩) ∧ Holds (landing rows (key,op)) tree ∧
      Adds engine.tree tree key (op.version engine.manager.nextTs) := by
  obtain ⟨tree,done,after,adds,-⟩ := versionLands (stampPositive engine.manager) holds lands
  refine ⟨tree,?_,after,adds⟩
  simp [Engine.autocommit,show execute _ _ = _ from done]

theorem onTreeLeaves {α : Type} {act} {good : α → LsmTree → Prop} {bad} (leaves : Leaves act engine.tree good bad) :
    (∃ a next, onTree engine act = (.ok a,next) ∧ good a next.tree) ∨
      ∃ e next, onTree engine act = (.error e,next) ∧ bad next.tree := by
  rcases leaves with ⟨a,tree,done,here⟩ | ⟨e,tree,failed,here⟩
  · refine .inl ⟨a,{engine with tree},?_,here⟩
    simp [onTree,show execute act engine.tree = _ from done,Except.mapError]
  · refine .inr ⟨ofStorage e,{engine with tree},?_,here⟩
    simp [onTree,failed,Except.mapError]

def acting (txn : Option UInt64) (rows : Rows) (op : StoreOp) : Rows := ((landed txn op).map (landing rows)).getD rows

def Ends {α : Type} (rows after : Rows) (ended : Except EngineFault α × Engine) : Prop :=
  match ended.1 with
  | .ok _ => Holds after ended.2.tree
  | .error _ => Holds rows ended.2.tree

theorem endsSame {α : Type} {ended : Except EngineFault α × Engine} (holds : Holds rows ended.2.tree) :
    Ends rows rows ended := by
  unfold Ends
  split <;> exact holds

theorem writeEnds (holds : Holds rows engine.tree) (lands : Lands engine key op) :
    Ends rows (landing rows (key,op)) (writeKey none engine key op) := by
  obtain ⟨_,done,after,-⟩ := autocommitHolds holds lands
  simpa only [Ends,writeKey,done,Except.mapError] using after

theorem onTreeEnds {α : Type} {after} {act : Act α}
    (leaves : Leaves act engine.tree (fun _ => Holds after) (Holds rows)) : Ends rows after (onTree engine act) := by
  rcases onTreeLeaves leaves with ⟨a,_,done,here⟩ | ⟨e,_,failed,here⟩
  · simpa only [Ends,done] using here
  · simpa only [Ends,failed] using here

theorem rawDeleteLeaves (holds : Holds rows engine.tree) (named : key ≠ []) (short : key.length+39 < 2^32)
    (proper : Reserved key ∨ TableKey key ∧ ∀ version, Held engine.tree key version → version.commitTs.toNat+1 < 2^56) :
    Leaves (delete key) engine.tree (fun _ => Holds (landing rows (key,.delete))) (Holds rows) := by
  rcases proper with reserved | ⟨own,room⟩
  · simpa only [landing,if_pos reserved] using deleteHolds holds named reserved short
  · simpa only [landing,if_neg own.outer,written] using deleteRows holds own short room

theorem handleEnds [Runtime] {txn : Option UInt64} {op : StoreOp} (holds : Holds rows engine.tree)
    (proper : Proper txn engine op) : Ends rows (acting txn rows op) (handle txn op engine) := by
  cases op with
  | get | range | rangeKeys | iter => exact endsSame holds
  | lookUp | scan => cases txn <;> exact endsSame holds
  | put | delete =>
    cases txn with
    | none => exact writeEnds holds (proper rfl)
    | some => exact endsSame holds
  | rawPut key value =>
    obtain ⟨named,reserved,short⟩ := proper
    have same : acting txn rows (.rawPut key value) = rows := by simp [acting,landed,landing,reserved]
    rw [same]
    exact onTreeEnds (putHolds holds named reserved short)
  | rawDelete =>
    obtain ⟨named,short,proper⟩ := proper
    exact onTreeEnds (leavesBind (rawDeleteLeaves holds named short proper) fun _ tree here => .inl ⟨(),tree,rfl,here⟩)

theorem foldLanded (txn) (ops : List StoreOp) (rows) :
    (ops.filterMap (landed txn)).foldl landing rows = ops.foldl (acting txn) rows := by
  rw [foldl_filterMap]
  refine congrArg (fun act => ops.foldl act rows) ?_
  funext rows op
  cases seen : landed txn op <;> simp [acting,seen]

theorem playHolds [Runtime] {α : Type} {script : StoreScript α} (holds : Holds rows engine.tree)
    (proper : Throughout (Proper txn) (handle txn) script engine) :
    Holds (((trace (handle txn) script engine).filterMap (landed txn)).foldl landing rows)
      (play (handle txn) script engine).2.tree := by
  refine (congrArg (fun after => Holds after _) (foldLanded txn _ rows)).mpr ?_
  refine @playKeeps _ _ _ _ _ (handle txn) (Proper txn) (fun engine rows => Holds rows engine.tree) (acting txn)
    ?_ ?_ script engine rows proper holds
  · intro op s t a u here related ran
    simpa only [Ends,ran] using handleEnds related here
  · intro _ s t e u here related ran
    simpa only [Ends,ran] using handleEnds related here

theorem pendingHolds (committed : commitTs ≠ 0)
    (ascending : Ascending pending) (holds : Holds rows tree) (lands : ∀ w ∈ pending, LandsAt tree commitTs w) :
    ∃ next, putPending (fun _ => none) commitTs pending tree = (.ok (),next) ∧ Holds (pending.foldl landing rows) next ∧
      ∀ other v, TableKey other → Held next other v →
        Held tree other v ∨ ∃ op, (other,op) ∈ pending ∧ v = op.version commitTs := by
  induction pending generalizing rows tree with
  | nil => exact ⟨tree,rfl,holds,fun _ _ _ held => .inl held⟩
  | cons w _ ih =>
    obtain ⟨_,op⟩ := w
    obtain ⟨first,others⟩ := pairwise_cons.mp ascending
    obtain ⟨_,done,middle,adds,still⟩ := versionLands committed holds (lands _ mem_cons_self)
    obtain ⟨next,more,after,added⟩ := ih others middle fun w mem =>
      still w (ne_of_gt (first w mem)) (lands w (mem_cons_of_mem _ mem))
    refine ⟨next,?_,after,fun other v own held => ?_⟩
    · simp [putPending,show execute _ _ = _ from done,more]
    · rcases added other v own held with before | ⟨op',mem,rfl⟩
      · rcases adds other v own before with old | ⟨rfl,rfl⟩
        · exact .inl old
        · exact .inr ⟨op,mem_cons_self,rfl⟩
      · exact .inr ⟨op',mem_cons_of_mem _ mem,rfl⟩

def finished (m : TxnManager) (session : UInt64) (id : TxnId) (txn : Transaction) : TxnManager :=
  m.tick.finishCommit session id m.nextTs txn.writeSet.entries

theorem commitHolds (holds : Holds rows engine.tree) (late : Bool)
    (lands : ∀ w ∈ pendingOf engine.manager session, Lands engine w.1 w.2) :
    (∃ fault, engine.commitToStorage (fun _ => none) session late = (.error fault,engine)) ∨
      ∃ id txn tree, engine.manager.active.find id = some txn ∧
        pendingOf engine.manager session = txn.writeSet.entries ∧
        engine.commitToStorage (fun _ => none) session late =
          (.ok (),⟨(finished engine.manager session id txn).gc (Engine.minRetain (finished engine.manager session id txn)),tree⟩) ∧
        Holds (txn.writeSet.entries.foldl landing rows) tree ∧ ∀ other v, TableKey other → Held tree other v →
          Held engine.tree other v ∨ ∃ op, (other,op) ∈ txn.writeSet.entries ∧ v = op.version engine.manager.nextTs := by
  rcases prepared : engine.manager.prepareCommit session late with ⟨fault | ⟨id,_,pending⟩,_⟩
  · have same := prepareCommitFails prepared
    refine .inl ⟨fault,?_⟩
    simp [Engine.commitToStorage,commitWithDurable,prepared,same]
  · obtain ⟨own,⟨txn,active,rfl⟩,rfl,rfl⟩ := prepareCommitReturns prepared
    have pending : pendingOf engine.manager session = txn.writeSet.entries := by
      simp [pendingOf,current,own,active]
    rw [pending] at lands
    obtain ⟨tree,done,kept,added⟩ := pendingHolds (stampPositive engine.manager) txn.writeSet.ascending holds lands
    let keep := Engine.minRetain (finished engine.manager session id txn)
    have pruned : execute (gcMvccActive keep) tree = (.ok _,collected tree keep) := gcReturns.mpr ⟨rfl,rfl⟩
    refine .inr ⟨id,txn,collected tree keep,active,pending,?_,holdsCollected kept keep,fun other v keyed held => ?_⟩
    · simp only [keep,finished] at pruned
      simp [Engine.commitToStorage,commitWithDurable,prepared,done,pruned,keep,finished]
    · exact added other v keyed (collectedSubset held)

end

theorem configTrigger (throughput) : 0 < (configOf throughput).l0CompactionTrigger := by
  cases throughput <;> decide

theorem openedHolds (throughput) : Holds (rowsOf (opened throughput).writes) (opened throughput).engine.tree :=
  holdsFresh (configTrigger throughput)

section
variable [Runtime]

theorem scanShown (region : Region engine.tree) (shows' : Shows engine.tree rows) (named : Named table) :
    play (handle none) (scanTable table) engine = (.ok (tableRows table rows),engine) := by
  have read : handle none (.scan (tablePrefix table) (prefixEnd (tablePrefix table))) engine =
      (.ok (rowsUnder (tablePrefix table) rows),engine) := by
    show ((engine.tree.rangeVisible Runtime.sorter _ _ .latest).mapError ofStorage,engine) = _
    rw [prefixEnd,tablePrefix,showsRange region shows' (tableKeyOf named "")]
    rfl
  have played : play (handle none) (scanRange (tablePrefix table) (prefixEnd (tablePrefix table))) engine =
      (.ok (rowsUnder (tablePrefix table) rows),engine) := (playCall _ _ _).trans read
  unfold scanTable
  rw [playBind,played]
  rfl

def LastWins (s : Logged) : Prop :=
  (∀ key, TableKey key → s.engine.tree.get key = .ok (lastWrite s.writes key)) ∧
    ∀ table, Named table →
      (play (handle none) (scanTable table) s.engine).1 = .ok (tableRows table (rowsOf s.writes))

theorem stepHolds {next} (holds : Holds (rowsOf s.writes) s.engine.tree)
    (rising : Rising s event) (done : step s event = some next) : Holds (rowsOf next.writes) next.engine.tree := by
  obtain rfl := some.inj done
  have whole : ∀ more, rowsOf (s.writes ++ more) = more.foldl landing (rowsOf s.writes) := fun more => foldl_append
  rw [whole]
  cases event with
  | request | putPackedRow => exact playHolds holds rising
  | tick | noteRead | begin | rollback => exact holds
  | commit _ late =>
    rcases commitHolds holds late rising with ⟨_,failed⟩ | ⟨_,_,tree,-,pending,ended,after,-⟩
    · simpa only [perform,writesOf,failed,foldl_nil] using holds
    · simpa only [perform,writesOf,ended,pending] using after
  | reopen throughput =>
    obtain ⟨_,opened,after⟩ := holdsReopened holds (configTrigger throughput)
    simpa only [perform,writesOf,opened,foldl_nil] using after

theorem holdsLastWins (holds : Holds (rowsOf s.writes) s.engine.tree) : LastWins s := by
  have region := holds.recoverable.region
  refine ⟨fun key own => ?_,fun table named => ?_⟩
  · rw [showsGet region holds.shows' own,rowsFind own.outer]
  · rw [scanShown region holds.shows' named]

theorem reachedHolds {throughput events s}
    (rising : Admissible step Rising (opened throughput) events) (reached : run step (opened throughput) events = some s) :
    Holds (rowsOf s.writes) s.engine.tree :=
  @runInvariant _ _ step Rising (fun s => Holds (rowsOf s.writes) s.engine.tree)
    (fun _ _ _ holds here done => stepHolds holds here done) _ _ _ (openedHolds throughput) rising reached

end

theorem putRowRising [Runtime] {s session schema table row column value} (lands : Lands s.engine (rowKey table row column) (.put value)) :
    Rising s (.request session schema (.putRow table row column value)) := by
  have proper : Proper (txnOf s.engine session) s.engine (.put (rowKey table row column) value) := fun _ => lands
  exact throughoutCall proper

theorem aboveSingle {tree key ts stored}
    (only : scanned tree = [recordOf key stored]) (lower : stored.commitTs < ts) : Above tree key ts := by
  intro _ held
  rw [Held,only,mem_singleton] at held
  rwa [(recordInjective held).2]

@[reducible] def plainRuntime : Runtime := plain id id

def writeCell (value : Bytes) : Event := .request 0 .empty (.putRow "t" "a" "v" value)
def rewritten : List Event := [writeCell [49],.reopen false,.tick,writeCell [50]]

def keyed : SchemaCatalog :=
  ⟨1,Table.empty.insert "t" ⟨"t",[⟨"k",.text,true,true,false⟩,⟨"v",.text,false,false,false⟩],["k"],1⟩⟩
def setTo (value : String) : Event := .request 0 keyed (.update ⟨"t",[("v",.literal (.string value))],none⟩)
def createKeyed : List Event := [.tick,.request 0 .empty (.markTable "t" (some "k"))]
def restarted : List Event := createKeyed ++
  [.request 0 keyed (.insert ⟨"t",none,[[.literal (.string "a"),.literal (.string "1")]]⟩),setTo "2",.reopen false,setTo "3"]

def scanBeside (s : Logged) : Option (List TableRow) × List TableRow :=
  ((@play _ _ _ _ (@handle plainRuntime none) (scanTable "t") s.engine).1.toOption,tableRows "t" (rowsOf s.writes))

end NoeDB.EngineRuns
