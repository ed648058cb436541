import NoeDB.Dml
import Mathlib.Data.Finset.Card

/-! What `CREATE INDEX`, `ANALYZE`, `CREATE TABLE` and `DROP TABLE` write to the tree
(noedb-planner: index.rs, stats.rs, pk.rs, ddl.rs). All of it is written raw, past the
transactions and their clock. -/
namespace NoeDB.Ddl
open ByteString Text OrderedTable StorageTypes Interaction Platform RowPack Dml

section

abbrev BTreeIndex := Table Bytes (List Bytes)

def BTreeIndex.push (index : BTreeIndex) (key rowId : Bytes) : BTreeIndex :=
  index.insert key ((index.find key).getD [] ++ [rowId])

def indexPair (table column : String) (index : BTreeIndex) (pair : Record) : BTreeIndex :=
  if (tablePrefix table).isPrefixOf pair.1 then
    let rest := pair.1.drop (tablePrefix table).length
    match rest.idxOf? 0 with
    | some pos => if rest.drop (pos+1) = utf8 column then BTreeIndex.push index pair.2 (rest.take pos) else index
    | none =>
        if isPackedRow pair.2 then
          match decodeRow pair.2 with
          | none => index
          | some cols =>
              match cellOf cols column with
              | some cell => BTreeIndex.push index cell rest
              | none => index
        else index
  else index

def persistIndex (table column : String) (index : BTreeIndex) : StoreScript Unit := do
  rawPut (metaKey table column) (utf8 "1")
  Script.forEach (fun e => Script.forEach (fun rowId => rawPut (entryKey table column e.1 rowId) []) e.2) index.entries

def buildIndex (table column : String) : StoreScript Unit := do
  let pairs ← treeRange (tablePrefix table) (prefixEnd (tablePrefix table))
  persistIndex table column (pairs.foldl (indexPair table column) Table.empty)

def lookupIndex (table column : String) (key : Bytes) : StoreScript (List Bytes) := do
  let start := entryPrefix table column ++ (key ++ [0])
  let pairs ← treeRange start (prefixEnd start)
  return (withPrefix start pairs).map fun k => k.drop start.length

end

section

structure TableStats where
  rowCount : Nat
  columns : Table String Nat
  deriving DecidableEq

structure Samples where
  rowIds : Finset Bytes
  values : Table String (Finset Bytes)

def Samples.add (samples : Samples) (rowId : Bytes) (cells : List (String × Bytes)) : Samples where
  rowIds := insert rowId samples.rowIds
  values := cells.foldl (fun values c => values.insert c.1 (insert c.2 ((values.find c.1).getD ∅))) samples.values

def samplePair (start : Bytes) (samples : Samples) (pair : Record) : Samples :=
  if start.isPrefixOf pair.1 then
    let rest := pair.1.drop start.length
    match rest.idxOf? 0 with
    | none => samples.add rest ((decodeRow pair.2).getD [("value",pair.2)])
    | some pos => samples.add (rest.take pos) [(fromUtf8Lossy (rest.drop (pos+1)),pair.2)]
  else samples

def analyzeTable (table : String) : StoreScript TableStats := do
  let pairs ← treeIter
  let samples := pairs.foldl (samplePair (tablePrefix table)) ⟨∅,.empty⟩
  return ⟨samples.rowIds.card,samples.values.mapValues Finset.card⟩

def columnNdvKey (table column : String) : Bytes := statsPrefix ++ (utf8 table ++ 0 :: (utf8 column ++ 0 :: utf8 "ndv"))

def persistTableStats [Runtime] (table : String) (stats : TableStats) : StoreScript Unit := do
  rawPut (tableRowsKey table) (beBytes 8 stats.rowCount)
  Script.forEach (fun e => rawPut (columnNdvKey table e.1) (beBytes 8 e.2)) (Runtime.walk stats.columns.entries)

def analyze [Runtime] (table : String) : StoreScript Unit := do
  let stats ← analyzeTable table
  persistTableStats table stats

/- `apply_statement` of a `CREATE INDEX`. -/
def createIndex [Runtime] (table : String) : List String → StoreScript Unit
  | [column] => do
      buildIndex table column
      analyze table
  | _ => .fail (.error (.exec .unsupportedExpr))

end

def markRowIdColumn (table column : String) : StoreScript Unit := rawPut (markerKey table) (utf8 column)

def unmarkRowIdColumn (table : String) : StoreScript Unit := rawDelete (markerKey table)

def purgePrefixes (table : String) : List Bytes :=
  [tablePrefix table,entriesPrefix ++ (utf8 table ++ [0]),metaPrefix ++ (utf8 table ++ [0]),statsPrefix ++ (utf8 table ++ [0])]

def purgePrefix (start : Bytes) : StoreScript Unit := do
  let keys ← treeKeys start (prefixEnd start)
  Script.forEach rawDelete keys

def purgeTableData (table : String) : StoreScript Unit := do
  Script.forEach purgePrefix (purgePrefixes table)
  unmarkRowIdColumn table

end NoeDB.Ddl
