import NoeDB.EngineRuns

/-! `CREATE TABLE` and `ALTER TABLE` (noedb-engine: engine.rs, `dispatch`), and what is left
of one that is refused. The caches and the vector indexes are left out: both are written
only after the catalog. -/
namespace NoeDB.RefusedDdl
open ByteString Text StorageTypes Fallible Lsm TxnStorage Interaction Platform SqlAst RowPack Schema LsmTree
open RowRecovery Dml Ddl EngineRuns

structure LocalEngine where
  engine : Engine
  schema : SchemaCatalog

structure Files where
  persistSchema : Except EngineFault Unit
  auditRecord : Except EngineFault Unit

inductive Definition where
  | createTable (stmt : CreateTableStmt)
  | alterTable (stmt : AlterTableStmt)

def adminRoles : List String := ["admin","root","noedb_admin"]

def isAdminRole (role : String) : Bool := adminRoles.any fun r => equalIgnoreCase role r

def columnMeta (c : ColumnDef) : ColumnMeta := ⟨c.name,c.dataType,c.notNull || c.primaryKey,c.primaryKey,c.unique⟩

def keyColumns (t : CreateTableStmt) : List String :=
  if t.primaryKey.isEmpty then (t.columns.filter ColumnDef.primaryKey).map ColumnDef.name else t.primaryKey

def rowIdColumn (t : CreateTableStmt) : Option String :=
  match keyColumns t with
  | [key] => if t.columns.head?.map ColumnDef.name = some key then some key else none
  | _ => none

def writeMarker (t : CreateTableStmt) : StoreScript Unit :=
  match rowIdColumn t with
  | some column => markRowIdColumn t.name column
  | none => unmarkRowIdColumn t.name

def ticked (engine : Engine) : Engine := {engine with manager := engine.manager.tick}

section
variable [Runtime] (files : Files)

def finish : Except EngineFault Unit := do
  files.persistSchema
  files.auditRecord

def createTable (t : CreateTableStmt) (s : LocalEngine) : Except EngineFault Unit × LocalEngine :=
  if t.ifNotExists && s.schema.contains t.name then (files.auditRecord,s)
  else
    match play (handle none) (writeMarker t) (ticked s.engine) with
    | (.error fault,engine) => (.error fault,{s with engine})
    | (.ok _,engine) =>
        match s.schema.createTable t.name s.engine.manager.nextTs (t.columns.map columnMeta) (keyColumns t) with
        | .error cause => (.error (.error (.schema cause)),{s with engine})
        | .ok schema => (finish files,⟨engine,schema⟩)

def alterTable (a : AlterTableStmt) (s : LocalEngine) : Except EngineFault Unit × LocalEngine :=
  match a.action with
  | .addColumn column =>
      match s.schema.addColumn a.table (columnMeta column) s.engine.manager.nextTs with
      | .error cause => (.error (.error (.schema cause)),{s with engine := ticked s.engine})
      | .ok schema => (finish files,⟨ticked s.engine,schema⟩)

def dispatch (role : String) (stmt : Definition) (s : LocalEngine) : Except EngineFault Unit × LocalEngine :=
  if isAdminRole role then
    match stmt with
    | .createTable t => createTable files t s
    | .alterTable a => alterTable files a s
  else (.error (.error (.accessDenied "DDL and security statements require admin role")),s)

end

def stalled (tree : LsmTree) : Bool := tree.config.writeStall.l0StopTrigger ≤ tree.level0.length

def markerBytes (t : CreateTableStmt) : Option Bytes := (rowIdColumn t).map utf8

def columnRefused (schema : SchemaCatalog) (a : AlterTableStmt) : Bool :=
  match a.action,schema.tables.find a.table with
  | .addColumn column,some entry => entry.columns.any fun c => c.name = column.name
  | .addColumn _,none => true

def Harmless (s : LocalEngine) (role : String) : Definition → Prop
  | .createTable t => isAdminRole role = false ∨ stalled s.engine.tree = true ∨ s.schema.contains t.name = true ∧
      (t.ifNotExists = true ∨ s.engine.tree.get (markerKey t.name) = .ok (markerBytes t))
  | .alterTable a => isAdminRole role = false ∨ columnRefused s.schema a = true

theorem createCases (schema : SchemaCatalog) (name ts columns key) :
    schema.contains name = true ∧ schema.createTable name ts columns key = .error (.tableExists name) ∨
      schema.contains name = false ∧ ∃ next, next ≠ schema ∧ schema.createTable name ts columns key = .ok next := by
  unfold SchemaCatalog.createTable
  cases present : schema.contains name with
  | true => exact .inl ⟨rfl,rfl⟩
  | false =>
    refine .inr ⟨rfl,_,fun same => ?_,rfl⟩
    have found : schema.contains name = true := by
      rw [← same]
      simp [SchemaCatalog.contains]
    rw [present] at found
    cases found

theorem addCases (schema table column ts) : columnRefused schema ⟨table,.addColumn column⟩ = true ∧
        (∃ cause, schema.addColumn table (columnMeta column) ts = .error cause) ∨
      columnRefused schema ⟨table,.addColumn column⟩ = false ∧
        ∃ next, next ≠ schema ∧ schema.addColumn table (columnMeta column) ts = .ok next := by
  unfold SchemaCatalog.addColumn columnRefused
  cases found : schema.tables.find table with
  | none => exact .inl ⟨rfl,_,rfl⟩
  | some entry =>
    simp only
    cases taken : entry.columns.any fun c => c.name = column.name with
    | true => exact .inl ⟨rfl,_,if_pos taken⟩
    | false =>
      refine .inr ⟨rfl,_,fun same => ?_,if_neg (Bool.eq_false_iff.mp taken)⟩
      have more := congrArg (fun c => (c.tables.find table).map fun e => e.columns.length) same
      simp [found] at more

section
variable [Runtime]

def tableRange (tree : LsmTree) (table : String) : Except Fault (List Record) :=
  tree.rangeVisible Runtime.sorter (tablePrefix table) (prefixEnd (tablePrefix table)) .latest

def Unchanged (s t : LocalEngine) : Prop :=
  t.schema = s.schema ∧ (∀ key, t.engine.tree.get key = s.engine.tree.get key) ∧
    ∀ table, tableRange t.engine.tree table = tableRange s.engine.tree table

def Carried (engine : Engine) (t : CreateTableStmt) : Prop :=
  stalled engine.tree = false → ∃ next, play (handle none) (writeMarker t) engine = (.ok (),next) ∧
    (∀ key, next.tree.get key = if key = markerKey t.name then .ok (markerBytes t) else engine.tree.get key) ∧
    ∀ table, tableRange next.tree table = tableRange engine.tree table

def Storable (s : LocalEngine) : Definition → Prop
  | .createTable t => Carried (ticked s.engine) t
  | .alterTable _ => True

theorem stalledRefuses {engine} (stops : stalled engine.tree = true) (t) :
    ∃ fault, play (handle none) (writeMarker t) engine = (.error fault,engine) := by
  have full : ¬engine.tree.level0.length < engine.tree.config.writeStall.l0StopTrigger :=
    not_lt.mpr (of_decide_eq_true stops)
  rcases gateLeaves engine.tree with ⟨_,_,gated,-⟩ | ⟨e,_,failed,rfl⟩
  · exact absurd (LsmCalls.gateWriteReturns.mp gated).1 full
  · have onlyGate {α : Type} {act : Act α} (stopped : execute act engine.tree = (.error e,engine.tree)) :
        onTree engine act = (.error (ofStorage e),engine) := by
      simp [onTree,stopped,Except.mapError]
    refine ⟨ofStorage e,?_⟩
    unfold writeMarker
    split
    · refine (playCall _ _ _).trans (@onlyGate _ (put _ _) ?_)
      rw [put,putWrite,executeBind,executeBind,failed]
    · refine (playCall _ _ _).trans (@onlyGate _ (do let _ ← delete _) ?_)
      rw [executeBind,delete,deleteWrite,executeBind,executeBind,failed]

theorem tickedUnchanged (s) : Unchanged s {s with engine := ticked s.engine} := ⟨rfl,fun _ => rfl,fun _ => rfl⟩

theorem createRefused
    (carried : Carried (ticked s.engine) t) (refused : createTable files t s = (.error fault,next)) :
    Unchanged s next ↔ stalled s.engine.tree = true ∨ s.schema.contains t.name = true ∧
      (t.ifNotExists = true ∨ s.engine.tree.get (markerKey t.name) = .ok (markerBytes t)) := by
  unfold createTable at refused
  split at refused
  · rename_i both
    obtain ⟨known,present⟩ := Bool.and_eq_true_iff.mp both
    cases (Prod.mk.inj refused).2
    exact ⟨fun _ => .inr ⟨present,.inl known⟩,fun _ => ⟨rfl,fun _ => rfl,fun _ => rfl⟩⟩
  rename_i bare
  cases full : stalled s.engine.tree with
  | true =>
    obtain ⟨_,stopped⟩ := @stalledRefuses _ (ticked s.engine) full t
    rw [stopped] at refused
    cases refused
    exact ⟨fun _ => .inl rfl,fun _ => tickedUnchanged s⟩
  | false =>
    obtain ⟨engine,ran,reads,scans⟩ := carried full
    rw [ran] at refused
    simp only [Bool.false_eq_true,false_or]
    rcases createCases s.schema t.name s.engine.manager.nextTs (t.columns.map columnMeta) (keyColumns t) with
      ⟨present,failed⟩ | ⟨missing,schema,differs,done⟩
    · simp only [failed] at refused
      cases refused
      have fresh : t.ifNotExists = false := by simpa [present] using bare
      simp only [present,fresh,Bool.false_eq_true,false_or,true_and]
      constructor
      · intro same
        rw [← same.2.1,reads,if_pos rfl]
      · intro same
        refine ⟨rfl,fun key => ?_,scans⟩
        rw [reads]
        split
        · rename_i here
          rw [here,same]
        · rfl
    · simp only [done] at refused
      obtain ⟨-,rfl⟩ := Prod.mk.inj refused
      simp only [missing,Bool.false_eq_true,false_and,iff_false]
      exact fun same => differs same.1

end

def columnOf (name : String) (primaryKey : Bool) : ColumnDef := ⟨name,.text,false,primaryKey,false⟩

def sound : Files := ⟨.ok (),.ok ()⟩

/- `CREATE TABLE t (a TEXT, b TEXT)`, which leaves no marker. -/
def plainColumns : CreateTableStmt := ⟨"t",false,[columnOf "a" false,columnOf "b" false],[]⟩

def newEngine : Engine := ⟨.new,LsmTree.fresh .default⟩

def plainTable : LocalEngine := (@dispatch plainRuntime sound "admin" (.createTable plainColumns) ⟨newEngine,.empty⟩).2

theorem plainCarried : @Carried plainRuntime (ticked newEngine) plainColumns := by
  refine fun _ => ⟨_,rfl,fun key => ?_,fun table => ?_⟩
  · split
    · rename_i here
      rw [here]
      decide +kernel
    · rfl
  · rfl

/- `CREATE TABLE t (b TEXT PRIMARY KEY)` on top of it fails, but `b` is now taken for the
column that rows are stored under. -/
def createAgain : Definition := .createTable ⟨"t",false,[columnOf "b" true],[]⟩

end NoeDB.RefusedDdl
