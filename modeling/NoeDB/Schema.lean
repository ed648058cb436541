import NoeDB.OrderedTable
import NoeDB.SqlAst
import NoeDB.StorageTypes
import Mathlib.Data.String.Basic

/-! The schema catalog (noedb-engine: schema.rs). -/
namespace NoeDB.Schema
open OrderedTable SqlAst StorageTypes

structure ColumnMeta where
  name : String
  dataType : SqlType
  notNull : Bool
  primaryKey : Bool
  unique : Bool
  deriving DecidableEq, Repr

structure TableSchema where
  name : String
  columns : List ColumnMeta
  primaryKey : List String
  versionTs : CommitTs
  deriving DecidableEq, Repr

inductive SchemaError where
  | tableExists (name : String)
  | unknownTable (name : String)
  | columnExists (name : String)
  deriving DecidableEq, Repr

structure SchemaCatalog where
  epoch : CommitTs
  tables : Table String TableSchema
  deriving DecidableEq

namespace SchemaCatalog

def empty : SchemaCatalog := ⟨0,.empty⟩

def contains (catalog : SchemaCatalog) (name : String) : Bool := (catalog.tables.find name).isSome

def createTable (catalog : SchemaCatalog) (name : String) (versionTs : CommitTs) (columns : List ColumnMeta)
    (primaryKey : List String) : Except SchemaError SchemaCatalog :=
  if catalog.contains name then .error (.tableExists name)
  else .ok ⟨max catalog.epoch versionTs,catalog.tables.insert name ⟨name,columns,primaryKey,versionTs⟩⟩

def dropTable (catalog : SchemaCatalog) (name : String) : Except SchemaError SchemaCatalog :=
  if catalog.contains name then .ok {catalog with tables := catalog.tables.erase name}
  else .error (.unknownTable name)

def addColumn (catalog : SchemaCatalog) (table : String) (column : ColumnMeta) (versionTs : CommitTs) :
    Except SchemaError SchemaCatalog :=
  match catalog.tables.find table with
  | none => .error (.unknownTable table)
  | some entry =>
      if entry.columns.any fun c => c.name = column.name then .error (.columnExists column.name)
      else
        let primaryKey := if column.primaryKey ∧ column.name ∉ entry.primaryKey then
          entry.primaryKey ++ [column.name] else entry.primaryKey
        .ok ⟨max catalog.epoch versionTs,
          catalog.tables.insert table {entry with columns := entry.columns ++ [column], primaryKey, versionTs}⟩

def columnNames (catalog : SchemaCatalog) (table : String) : Option (List String) :=
  (catalog.tables.find table).map fun t => t.columns.map ColumnMeta.name

def column (catalog : SchemaCatalog) (table name : String) : Option ColumnMeta :=
  (catalog.tables.find table).bind fun t => t.columns.find? fun c => c.name = name

end SchemaCatalog
end NoeDB.Schema
