import NoeDB.Interaction
import NoeDB.RowPack
import NoeDB.Schema
import NoeDB.SqlEval
import NoeDB.TxnStorage

/-! `INSERT`, `UPDATE` and `DELETE` (noedb-engine: dml.rs) with the index maintenance
(noedb-planner: index.rs) and the row counts (stats.rs), as scripts over the operations
they ask of the storage engine and of the open transaction. The vector index is left out:
it is only written here. -/
namespace NoeDB.Dml
open ByteString Text OrderedTable StorageTypes NewestPerKey Fallible Lsm Transactions TxnStorage
open SqlAst SqlValue SqlEval RowPack Schema Platform Interaction

inductive EngineError where
  | invalidSql (message : String)
  | exec (cause : ExecError)
  | storage (cause : StorageError)
  | codec (message : String)
  | unsupportedStatement
  | serializationFailure (message : String)
  | accessDenied (message : String)
  | schema (cause : SchemaError)
  deriving DecidableEq, Repr

inductive EngineFault where
  | error (cause : EngineError)
  | panicked
  | endless
  deriving DecidableEq, Repr

def ofExec : ExecFault → EngineFault
  | .error cause => .error (.exec cause)
  | .panicked => .panicked
  | .endless => .endless

def ofStorage : Fault → EngineFault
  | .error cause => .error (.storage cause)
  | .panicked => .panicked

def storageText : StorageError → String
  | .invalidInput message => "invalid storage input: " ++ message
  | .io message => "storage I/O error: " ++ message
  | .corruptWal message => "corrupt WAL: " ++ message
  | .checksumMismatch => "WAL checksum mismatch"
  | .corruptSstable message => "corrupt SSTable: " ++ message
  | .resourceExhausted message => "resource exhausted: " ++ message

/- `txn_err`: the transaction manager keeps the text of a storage error only. -/
def ofTxn : TxnFault → EngineFault
  | .error (.storage cause) => .error (.storage (.io (storageText cause)))
  | .error (.serializationFailure message) => .error (.serializationFailure message)
  | .error .deadlockVictim => .error (.serializationFailure "deadlock detected")
  | .error .waitTimeout => .error (.serializationFailure "transaction wait timeout")
  | .error .noActiveTxn => .error (.invalidSql "no active transaction")
  | .error .txnAlreadyActive => .error (.invalidSql "transaction already in progress")
  | .panicked => .panicked

/- What a statement asks for. `lookUp`, `scan`, `put` and `delete` go to the open transaction,
if there is one; the others go to the tree in any case. -/
inductive StoreOp where
  | get (key : Bytes)
  | range (start stop : Bytes)
  | rangeKeys (start stop : Bytes)
  | iter
  | lookUp (key : Bytes)
  | scan (start stop : Bytes)
  | put (key value : Bytes)
  | delete (key : Bytes)
  | rawPut (key value : Bytes)
  | rawDelete (key : Bytes)
  deriving DecidableEq, Repr

def storeSignature : Signature where
  Op := StoreOp
  Answer
    | .get _ => Option Bytes
    | .range _ _ => List Record
    | .rangeKeys _ _ => List Bytes
    | .iter => List Record
    | .lookUp _ => Option Bytes
    | .scan _ _ => List Record
    | _ => Unit

abbrev StoreScript := Script storeSignature EngineFault

def ask (op : StoreOp) : StoreScript (storeSignature.Answer op) := @Script.call storeSignature EngineFault op

def treeGet (key : Bytes) : StoreScript (Option Bytes) := ask (.get key)
def treeRange (start stop : Bytes) : StoreScript (List Record) := ask (.range start stop)
def treeKeys (start stop : Bytes) : StoreScript (List Bytes) := ask (.rangeKeys start stop)
def treeIter : StoreScript (List Record) := ask .iter
def lookUp (key : Bytes) : StoreScript (Option Bytes) := ask (.lookUp key)
def scanRange (start stop : Bytes) : StoreScript (List Record) := ask (.scan start stop)
def putKey (key value : Bytes) : StoreScript Unit := ask (.put key value)
def deleteKey (key : Bytes) : StoreScript Unit := ask (.delete key)
def rawPut (key value : Bytes) : StoreScript Unit := ask (.rawPut key value)
def rawDelete (key : Bytes) : StoreScript Unit := ask (.rawDelete key)

def refuse {α : Type} (message : String) : Except EngineFault α := .error (.error (.exec (.typeMismatch message)))

def evaluated {α : Type} (result : Eval α) : Except EngineFault α := result.mapError ofExec

section

def valueToRowId : Value → String
  | .null => "null"
  | .integer n => intText n
  | .float f => Decimals.print Decimals.double f
  | .bool b => boolText b
  | .bytes b => fromUtf8Lossy b
  | .date b => fromUtf8Lossy b
  | .timestamp ts => intText ts
  | .vector v =>
      match v with
      | f :: _ => Decimals.print Decimals.single f
      | [] => "0"

def valueToBytes : Value → Bytes
  | .null => []
  | .integer n => utf8 (intText n)
  | .float f => utf8 (Decimals.print Decimals.double f)
  | .bool b => [if b then 1 else 0]
  | .bytes b => b
  | .date b => b
  | .timestamp ts => utf8 (intText ts)
  | .vector v => vectorToBytes v

def parseVectorText (b : Bytes) (dim : Nat) : Except EngineFault (List Float32) :=
  match fromUtf8 b with
  | none => refuse "invalid UTF-8 for VECTOR literal"
  | some s => do
      let floats ← evaluated (parseFloats (fun part => "invalid float `" ++ part ++ "` in VECTOR literal") (vectorParts s))
      if floats.length ≠ dim then
        refuse ("VECTOR(" ++ toString dim ++ ") literal has " ++ toString floats.length ++ " elements")
      else .ok floats

def encodeVector (val : Value) (dim : Nat) : Except EngineFault Bytes := do
  let floats ← match val with
    | .vector v => .ok v
    | .bytes b => parseVectorText b dim
    | other => refuse ("expected VECTOR(" ++ toString dim ++ ") value, got " ++ other.debugText)
  if floats.length ≠ dim then
    refuse ("VECTOR(" ++ toString dim ++ ") dimension mismatch: got " ++ toString floats.length ++ " floats")
  else .ok (vectorToBytes floats)

def encodeForType (val : Value) : SqlType → Except EngineFault Bytes
  | .vector dim => encodeVector val dim
  | _ => .ok (valueToBytes val)

def encodeChecked (schema : SchemaCatalog) (table col : String) (val : Value) : Except EngineFault Bytes :=
  match schema.column table col with
  | some column =>
      if column.notNull ∧ val = .null then refuse ("NOT NULL constraint failed for `" ++ table ++ "." ++ col ++ "`")
      else encodeForType val column.dataType
  | none => .ok (valueToBytes val)

end

section

structure Gathered where
  packed : Option (List (String × Bytes))
  cells : List (String × Bytes)

def gatheredAt (grouped : Table Bytes Gathered) (rowId : Bytes) : Gathered := (grouped.find rowId).getD ⟨none,[]⟩

def gather (start : Bytes) (grouped : Table Bytes Gathered) (pair : Record) : Table Bytes Gathered :=
  if start.isPrefixOf pair.1 then
    let rest := pair.1.drop start.length
    match rest.idxOf? 0 with
    | some pos =>
        let row := gatheredAt grouped (rest.take pos)
        grouped.insert (rest.take pos) {row with cells := row.cells ++ [(fromUtf8Lossy (rest.drop (pos+1)),pair.2)]}
    | none =>
        match decodeRow pair.2 with
        | some columns => grouped.insert rest {gatheredAt grouped rest with packed := some columns}
        | none => grouped
  else grouped

def setColumn (row : List (String × Bytes)) (column : String × Bytes) : List (String × Bytes) :=
  match row with
  | [] => [column]
  | c :: rest => if c.1 = column.1 then (c.1,column.2) :: rest else c :: setColumn rest column

def Gathered.row (gathered : Gathered) : List (String × Bytes) :=
  gathered.cells.foldl setColumn (gathered.packed.getD [])

def asRow (columns : List (String × Bytes)) : Row := columns.map fun c => (c.1,.bytes c.2)

def groupRows (start : Bytes) (pairs : List Record) : List (String × List (String × Bytes)) :=
  (pairs.foldl (gather start) Table.empty).entries.map fun e => (fromUtf8Lossy e.1,e.2.row)

def scanTable (table : String) : StoreScript (List (String × List (String × Bytes))) := do
  let pairs ← scanRange (tablePrefix table) (prefixEnd (tablePrefix table))
  return groupRows (tablePrefix table) pairs

end

def withPrefix (start : Bytes) (pairs : List Record) : List Bytes :=
  (pairs.filter fun pair => start.isPrefixOf pair.1).map Prod.fst

def indexedColumns (table : String) : StoreScript (List String) := do
  let start := metaPrefix ++ (utf8 table ++ [0])
  let pairs ← treeRange start (prefixEnd start)
  return (withPrefix start pairs).map fun key => fromUtf8Lossy (key.drop start.length)

def indexEntryPut (table column : String) (value : Bytes) (rowId : String) : StoreScript Unit :=
  putKey (entryKey table column value (utf8 rowId)) []

def indexEntryDelete (table column : String) (value : Bytes) (rowId : String) : StoreScript Unit :=
  deleteKey (entryKey table column value (utf8 rowId))

def tableRowsKey (table : String) : Bytes := statsPrefix ++ (utf8 table ++ 0 :: utf8 "rows")

def ofBeBytes (bytes : Bytes) : Nat := ofLeBytes bytes.reverse

/- Sums and differences saturate. -/
def countedRows (current : Option Bytes) (delta : Int) : Nat :=
  let count := match current with
    | some b => if b.length = 8 then ofBeBytes b else 0
    | none => 0
  if delta < 0 then count-delta.natAbs else min (count+delta.natAbs) 18446744073709551615

def incrementRowCount (table : String) (delta : Int) : StoreScript Unit := do
  let current ← treeGet (tableRowsKey table)
  rawPut (tableRowsKey table) (beBytes 8 (countedRows current delta))

/- Only outside of transactions, and where rows have come or gone. -/
def countRows (inTxn : Bool) (table : String) (delta : Int) : StoreScript Unit :=
  if inTxn ∨ delta = 0 then pure () else incrementRowCount table delta

def writePackedRow (table rowId : String) (columns : List (String × Bytes)) : StoreScript Unit :=
  putKey (packedRowKey table rowId) (encodeRow columns)

section

def keyExists (table pk rowId : String) : StoreScript Bool := do
  let packed ← lookUp (packedRowKey table rowId)
  if packed.isSome then return true
  else
    let cell ← lookUp (rowKey table rowId pk)
    return cell.isSome

def keyText (table : String) (colNames : List String) (values : List Value) (pk : String) : Except EngineFault String :=
  match colNames.idxOf? pk with
  | none => refuse ("PRIMARY KEY column `" ++ pk ++ "` missing from INSERT")
  | some idx =>
      match values[idx]? with
      | none => .error .panicked
      | some .null => refuse ("NOT NULL constraint failed for PRIMARY KEY `" ++ table ++ "." ++ pk ++ "`")
      | some value => .ok (valueToRowId value)

def refuseTaken (pk pkRow : String) (taken : Bool) : Except EngineFault Unit :=
  if taken then refuse ("PRIMARY KEY constraint failed: duplicate `" ++ pk ++ "` = `" ++ pkRow ++ "`") else .ok ()

def checkKeyColumn (table : String) (colNames : List String) (values : List Value) (pk : String) : StoreScript Unit := do
  let pkRow ← .ofExcept (keyText table colNames values pk)
  let found ← keyExists table pk pkRow
  .ofExcept (refuseTaken pk pkRow found)

def sameInColumn (col : String) (value : Value) (row : String × List (String × Bytes)) : Bool :=
  match row.2.find? fun c => c.1 = col with
  | some c => (Value.bytes c.2).sqlEq value = some true
  | none => false

def checkUniqueColumn (colNames : List String) (values : List Value)
    (existing : List (String × List (String × Bytes))) (col : String) : Except EngineFault Unit :=
  match colNames.idxOf? col with
  | none => .ok ()
  | some idx =>
      match values[idx]? with
      | none => .error .panicked
      | some .null => .ok ()
      | some value =>
          if existing.any (sameInColumn col value) then
            refuse ("UNIQUE constraint failed: duplicate `" ++ col ++ "`")
          else .ok ()

def uniqueColumns (table : TableSchema) : List String :=
  (table.columns.filter fun c => c.unique ∧ ¬c.primaryKey).map ColumnMeta.name

def enforceUniqueColumns (table : String) (colNames : List String) (values : List Value) (tableSchema : TableSchema) :
    StoreScript Unit :=
  if uniqueColumns tableSchema = [] then pure ()
  else do
    let existing ← scanTable table
    Script.forEach (fun col => .ofExcept (checkUniqueColumn colNames values existing col)) (uniqueColumns tableSchema)

def enforcePrimaryKey (schema : SchemaCatalog) (table : String) (colNames : List String) (values : List Value) :
    StoreScript Unit :=
  match schema.tables.find table with
  | none => pure ()
  | some tableSchema => do
      Script.forEach (checkKeyColumn table colNames values) tableSchema.primaryKey
      enforceUniqueColumns table colNames values tableSchema

end

def insertColumns (schema : SchemaCatalog) (ins : InsertStmt) : Except EngineFault (List String) :=
  match ins.columns with
  | some cols => .ok cols
  | none =>
      match schema.columnNames ins.table with
      | some names => .ok names
      | none => .error (.error (.exec (.unknownColumn
          ("table `" ++ ins.table ++ "` not in schema — CREATE TABLE first"))))

section
variable [Runtime] (schema : SchemaCatalog) (inTxn : Bool)

def evalValues : List Expr → Eval (List Value)
  | [] => .ok []
  | expr :: rest => do
      let value ← evalExpr expr []
      let values ← evalValues rest
      .ok (value :: values)

def encodeColumns (table : String) : List (String × Value) → Except EngineFault (List (String × Bytes))
  | [] => .ok []
  | (col,val) :: rest => do
      let bytes ← encodeChecked schema table col val
      let more ← encodeColumns table rest
      .ok ((col,bytes) :: more)

def rowValues (colNames : List String) (rowExprs : List Expr) : Except EngineFault (String × List Value) :=
  if rowExprs.length ≠ colNames.length then
    refuse ("INSERT column count mismatch: expected " ++ toString colNames.length ++ ", got " ++ toString rowExprs.length)
  else do
    let values ← evaluated (evalValues rowExprs)
    match values with
    | [] => .error .panicked
    | first :: _ => .ok (valueToRowId first,values)

def insertRow (table : String) (colNames indexed : List String) (rowExprs : List Expr) : StoreScript Unit := do
  let row ← .ofExcept (rowValues colNames rowExprs)
  enforcePrimaryKey schema table colNames row.2
  let pending ← .ofExcept (encodeColumns schema table (colNames.zip row.2))
  writePackedRow table row.1 pending
  Script.forEach (fun c => indexEntryPut table c.1 c.2 row.1) (pending.filter fun c => c.1 ∈ indexed)
  countRows inTxn table 1

def executeInsert (ins : InsertStmt) : StoreScript Unit := do
  let colNames ← .ofExcept (insertColumns schema ins)
  let indexed ← indexedColumns ins.table
  Script.forEach (insertRow schema inTxn ins.table colNames indexed) ins.values

def wants (whereClause : Option Expr) (row : Row) : Eval Bool :=
  match whereClause with
  | some pred => evalPredicate pred row
  | none => .ok true

def matchingRows (whereClause : Option Expr) :
    List (String × List (String × Bytes)) → Eval (List (String × List (String × Bytes)))
  | [] => .ok []
  | row :: rest => do
      let wanted ← wants whereClause (asRow row.2)
      let more ← matchingRows whereClause rest
      .ok (if wanted then row :: more else more)

def matchedRows (table : String) (whereClause : Option Expr) : StoreScript (List (String × List (String × Bytes))) := do
  let all ← scanTable table
  .ofExcept (evaluated (matchingRows whereClause all))

def encodeAssignments (table : String) (row : List (String × Bytes)) :
    List (String × Expr) → Except EngineFault (List (String × Bytes))
  | [] => .ok []
  | (col,expr) :: rest => do
      let val ← evaluated (evalExpr expr (asRow row))
      let bytes ← encodeChecked schema table col val
      let more ← encodeAssignments table row rest
      .ok ((col,bytes) :: more)

def cellOf (row : List (String × Bytes)) (col : String) : Option Bytes := (row.find? fun c => c.1 = col).map Prod.snd

def deleteCells (start : Bytes) (pairs : List Record) : StoreScript Unit := Script.forEach deleteKey (withPrefix start pairs)

def tombstoneRowCells (table rowId : String) : StoreScript Unit := do
  let start := rowPrefix table rowId
  let pairs ← scanRange start (prefixEnd start)
  deleteCells start pairs

def moveIndexEntry (table rowId : String) (row : List (String × Bytes)) (c : String × Bytes) : StoreScript Unit :=
  match cellOf row c.1 with
  | some old =>
      if old = c.2 then pure ()
      else do
        indexEntryDelete table c.1 old rowId
        indexEntryPut table c.1 c.2 rowId
  | none => indexEntryPut table c.1 c.2 rowId

def updateRow (upd : UpdateStmt) (indexed : List String) (row : String × List (String × Bytes)) : StoreScript Unit := do
  let pending ← .ofExcept (encodeAssignments schema upd.table row.2 upd.assignments)
  writePackedRow upd.table row.1 (pending.foldl setColumn row.2)
  tombstoneRowCells upd.table row.1
  Script.forEach (moveIndexEntry upd.table row.1 row.2) (pending.filter fun c => c.1 ∈ indexed)

def executeUpdate (upd : UpdateStmt) : StoreScript Nat := do
  let indexed ← indexedColumns upd.table
  let rows ← matchedRows upd.table upd.whereClause
  Script.forEach (updateRow schema upd indexed) rows
  return rows.length

def deletePresent (key : Bytes) (found : Option Bytes) : StoreScript Unit :=
  if found.isSome then deleteKey key else pure ()

def deleteRow (table rowId : String) : StoreScript Unit := do
  let packed ← treeGet (packedRowKey table rowId)
  deletePresent (packedRowKey table rowId) packed
  let start := rowPrefix table rowId
  let pairs ← treeRange start (prefixEnd start)
  deleteCells start pairs

def deleteRowInTxn (table rowId : String) : StoreScript Unit := do
  deleteKey (packedRowKey table rowId)
  match schema.columnNames table with
  | none => .fail (.error (.exec (.unknownColumn ("table `" ++ table ++ "` not in schema"))))
  | some cols => Script.forEach (fun col => deleteKey (rowKey table rowId col)) cols

def deleteIndexEntry (table : String) (row : String × List (String × Bytes)) (col : String) : StoreScript Unit :=
  match cellOf row.2 col with
  | some old => indexEntryDelete table col old row.1
  | none => pure ()

def deleteMatched (table : String) (indexed : List String) (row : String × List (String × Bytes)) : StoreScript Unit := do
  if inTxn then deleteRowInTxn schema table row.1 else deleteRow table row.1
  Script.forEach (deleteIndexEntry table row) indexed

def executeDelete (del : DeleteStmt) : StoreScript Nat := do
  let indexed ← indexedColumns del.table
  let rows ← matchedRows del.table del.whereClause
  Script.forEach (deleteMatched schema inTxn del.table indexed) rows
  countRows inTxn del.table (-rows.length)
  return rows.length

end

section

def onTree {α : Type} (engine : Engine) (act : Act α) : Except EngineFault α × Engine :=
  let (result,tree) := execute act engine.tree
  (result.mapError ofStorage,{engine with tree})

def onManager {α : Type} (engine : Engine) (result : Except TxnFault α × TxnManager) : Except EngineFault α × Engine :=
  (result.1.mapError ofTxn,{engine with manager := result.2})

def overlayRange (sorter : Sorter) (engine : Engine) (session : UInt64) (start stop : Bytes) :
    Except EngineFault (List Record) :=
  match TxnOverlayStore.forSession engine session with
  | .error fault => .error (ofTxn fault)
  | .ok store => (store.range sorter start stop).mapError ofStorage

def writeKey (txn : Option UInt64) (engine : Engine) (key : Bytes) (op : WriteOp) : Except EngineFault Unit × Engine :=
  match txn with
  | none =>
      let (result,next) := engine.autocommit key op
      (result.mapError ofStorage,next)
  | some session => onManager engine (engine.manager.withTxn session fun t => ((),t.write key op))

variable [Runtime]

def handle (txn : Option UInt64) : Handler storeSignature EngineFault Engine
  | .get key,engine => ((engine.tree.get key).mapError ofStorage,engine)
  | .range start stop,engine =>
      ((engine.tree.rangeVisible Runtime.sorter start stop .latest).mapError ofStorage,engine)
  | .rangeKeys start stop,engine =>
      ((engine.tree.rangeVisibleKeys Runtime.sorter start stop .latest).mapError ofStorage,engine)
  | .iter,engine => ((engine.tree.iter Runtime.sorter).mapError ofStorage,engine)
  | .lookUp key,engine =>
      match txn with
      | none => ((engine.tree.get key).mapError ofStorage,engine)
      | some session => onManager engine (engine.manager.get session key)
  | .scan start stop,engine =>
      match txn with
      | none => ((engine.tree.rangeVisible Runtime.sorter start stop .latest).mapError ofStorage,engine)
      | some session => (overlayRange Runtime.sorter engine session start stop,engine)
  | .put key value,engine => writeKey txn engine key (.put value)
  | .delete key,engine => writeKey txn engine key .delete
  | .rawPut key value,engine => onTree engine (LsmTree.put key value)
  | .rawDelete key,engine => onTree engine (do let _ ← LsmTree.delete key)

end
end NoeDB.Dml
