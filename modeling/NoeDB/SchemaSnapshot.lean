import NoeDB.Parser
import NoeDB.Schema

/-! The catalog on disk (noedb-engine: schema.rs). A column's type is written as a tag,
with the dimension of a vector beside it. -/
namespace NoeDB.SchemaSnapshot
open OrderedTable SqlAst StorageTypes Schema List Table SchemaCatalog
open NoeDB.Parser

structure PersistedColumn where
  name : String
  dataType : String
  vectorDim : Option Nat
  notNull : Bool
  primaryKey : Bool
  unique : Bool
  deriving DecidableEq, Repr

structure PersistedTable where
  name : String
  columns : List PersistedColumn
  primaryKey : List String
  versionTs : CommitTs
  deriving DecidableEq, Repr

structure Snapshot where
  epoch : CommitTs
  tables : List PersistedTable
  deriving DecidableEq, Repr

def sqlTypeTag : SqlType → String
  | .int => "INT"
  | .boolean => "BOOL"
  | .float => "FLOAT"
  | .varchar _ => "VARCHAR"
  | .text => "TEXT"
  | .date => "DATE"
  | .timestamp => "TIMESTAMP"
  | .vector _ => "VECTOR"
  | .named name => name

def dimension : SqlType → Option Nat
  | .vector dim => some dim
  | _ => none

def decodeSqlType (tag : String) (vectorDim : Option Nat) : SqlType :=
  if tag = "INT" ∨ tag = "INTEGER" then .int
  else if tag = "BOOL" ∨ tag = "BOOLEAN" then .boolean
  else if tag = "FLOAT" ∨ tag = "REAL" ∨ tag = "DOUBLE" then .float
  else if tag = "TEXT" then .text
  else if tag = "DATE" then .date
  else if tag = "TIMESTAMP" then .timestamp
  else if tag = "VECTOR" then .vector (vectorDim.getD 0)
  else if tag = "VARCHAR" then .varchar none
  else .named tag

def persistColumn (c : ColumnMeta) : PersistedColumn :=
  ⟨c.name,sqlTypeTag c.dataType,dimension c.dataType,c.notNull,c.primaryKey,c.unique⟩

def persistTable (t : TableSchema) : PersistedTable :=
  ⟨t.name,t.columns.map persistColumn,t.primaryKey,t.versionTs⟩

def ofCatalog (catalog : SchemaCatalog) : Snapshot :=
  ⟨catalog.epoch,catalog.tables.entries.map fun e => persistTable e.2⟩

def columnMeta (c : PersistedColumn) : ColumnMeta :=
  ⟨c.name,decodeSqlType c.dataType c.vectorDim,c.notNull,c.primaryKey,c.unique⟩

def tableSchema (t : PersistedTable) : TableSchema :=
  ⟨t.name,t.columns.map columnMeta,t.primaryKey,t.versionTs⟩

def toCatalog (snapshot : Snapshot) : SchemaCatalog :=
  ⟨snapshot.epoch,snapshot.tables.foldl (fun tables t => tables.insert t.name (tableSchema t)) .empty⟩

/- The format of a snapshot's text; what is printed is read back. -/
class Json (Text : outParam Type) where
  toStringPretty : Snapshot → Text
  fromStr : Text → Except String Snapshot
  faithful : ∀ snapshot, fromStr (toStringPretty snapshot) = .ok snapshot

@[reducible] def verbatim : Json Snapshot where
  toStringPretty snapshot := snapshot
  fromStr := .ok
  faithful _ := rfl

section
variable {Text : Type} [Json Text]

def save (catalog : SchemaCatalog) : Option Text := some (Json.toStringPretty (ofCatalog catalog))

def load : Option Text → Except String SchemaCatalog
  | none => .ok .empty
  | some raw => (Json.fromStr raw).map toCatalog

@[simp] theorem loadSaved (catalog) : load (save catalog) = .ok (toCatalog (ofCatalog catalog)) := by
  simp only [load,save,Json.faithful]
  rfl

end

def Read (ty : SqlType) : Prop := ∃ toks rest, parseSqlType toks = .ok (ty,rest)

def withLength : SqlType → Bool
  | .varchar (some _) => true
  | _ => false

def tags : List String :=
  ["INT","INTEGER","BOOL","BOOLEAN","FLOAT","REAL","DOUBLE","TEXT","DATE","TIMESTAMP","VECTOR","VARCHAR"]

theorem readNamed (read : Read (.named name)) : name ∉ tags := by
  obtain ⟨toks,_,parsed⟩ := read
  unfold parseSqlType at parsed
  cases ident : parseIdent toks with
  | error =>
    rw [ident] at parsed
    cases parsed
  | ok =>
    rw [ident] at parsed
    simp only [bind,Except.bind] at parsed
    iterate 6
      split at parsed
      · cases parsed
    split at parsed
    · split at parsed
      · split at parsed <;> cases parsed
      · cases parsed
    split at parsed
    · split at parsed <;> cases parsed
    cases parsed
    simp_all [tags]

theorem decodeNamed (other : name ∉ tags) (dim) : decodeSqlType name dim = .named name := by
  simp only [tags,mem_cons,not_mem_nil,or_false,not_or] at other
  simp [decodeSqlType,other]

theorem decodedIff (read : Read ty) : decodeSqlType (sqlTypeTag ty) (dimension ty) = ty ↔ withLength ty = false := by
  cases ty with
  | named => simp [sqlTypeTag,decodeNamed (readNamed read),withLength]
  | varchar len => cases len <;> simp [sqlTypeTag,decodeSqlType,withLength]
  | _ => simp [sqlTypeTag,decodeSqlType,dimension,withLength]

theorem columnIff (read : Read c.dataType) : columnMeta (persistColumn c) = c ↔ withLength c.dataType = false := by
  rw [← decodedIff read]
  cases c
  simp [columnMeta,persistColumn]

theorem columnsIff {columns : List ColumnMeta} (read : ∀ c ∈ columns, Read c.dataType) :
    (columns.map persistColumn).map columnMeta = columns ↔ ∀ c ∈ columns, withLength c.dataType = false := by
  induction columns with
  | nil => simp
  | cons _ _ ih =>
    obtain ⟨here,later⟩ := forall_mem_cons.mp read
    rw [map_cons,map_cons,List.cons.injEq,columnIff here,ih later,forall_mem_cons]

theorem tableIff {t : TableSchema} (read : ∀ c ∈ t.columns, Read c.dataType) :
    tableSchema (persistTable t) = t ↔ ∀ c ∈ t.columns, withLength c.dataType = false := by
  rw [← columnsIff read]
  cases t
  simp [tableSchema,persistTable]

structure Sound (catalog : SchemaCatalog) : Prop where
  named : ∀ name t, catalog.tables.find name = some t → t.name = name
  read : ∀ name t, catalog.tables.find name = some t → ∀ c ∈ t.columns, Read c.dataType

theorem findRestored (sound : Sound catalog) (name) : (toCatalog (ofCatalog catalog)).tables.find name =
      (catalog.tables.find name).map fun t => tableSchema (persistTable t) := by
  have folded : (toCatalog (ofCatalog catalog)).tables =
      catalog.tables.entries.foldl (fun tables e => tables.insert e.1 (tableSchema (persistTable e.2))) .empty := by
    simp only [toCatalog,ofCatalog,foldl_map]
    apply foldl_ext
    intro tables e mem
    rw [show (persistTable e.2).name = e.1 from sound.named e.1 e.2 (memIff.mp mem)]
  rw [folded,findInserted (fun _ t => tableSchema (persistTable t)) catalog.tables.ascending,findEmpty,
    Option.or_none]
  rfl

def Unbounded (catalog : SchemaCatalog) : Prop :=
  ∀ e ∈ catalog.tables.entries, ∀ c ∈ e.2.columns, withLength c.dataType = false

theorem restoredIff (sound : Sound catalog) : toCatalog (ofCatalog catalog) = catalog ↔ Unbounded catalog := by
  have read : ∀ e ∈ catalog.tables.entries, ∀ c ∈ e.2.columns, Read c.dataType :=
    fun e mem => sound.read e.1 e.2 (memIff.mp mem)
  constructor
  · intro same e mem
    have found := memIff.mp mem
    have restored := findRestored sound e.1
    rw [same,found] at restored
    exact (tableIff (read e mem)).mp (Option.some.inj restored).symm
  · intro unbounded
    have tables : (toCatalog (ofCatalog catalog)).tables = catalog.tables := by
      refine tableExt fun name => ?_
      rw [findRestored sound]
      cases found : catalog.tables.find name with
      | none => rfl
      | some =>
        have mem := memIff.mpr found
        rw [Option.map_some,(tableIff (read _ mem)).mpr (unbounded _ mem)]
    calc toCatalog (ofCatalog catalog) = ⟨catalog.epoch,(toCatalog (ofCatalog catalog)).tables⟩ := rfl
      _ = catalog := by rw [tables]

inductive Change where
  | createTable (name : String) (versionTs : CommitTs) (columns : List ColumnMeta) (primaryKey : List String)
  | addColumn (table : String) (column : ColumnMeta) (versionTs : CommitTs)
  | dropTable (name : String)

def Change.columns : Change → List ColumnMeta
  | .createTable _ _ columns _ => columns
  | .addColumn _ column _ => [column]
  | .dropTable _ => []

def apply (catalog : SchemaCatalog) : Change → Except SchemaError SchemaCatalog
  | .createTable name versionTs columns primaryKey => catalog.createTable name versionTs columns primaryKey
  | .addColumn table column versionTs => catalog.addColumn table column versionTs
  | .dropTable name => catalog.dropTable name

def alter (catalog : SchemaCatalog) (change : Change) : SchemaCatalog :=
  match apply catalog change with
  | .ok next => next
  | .error _ => catalog

theorem emptySound : Sound .empty where
  named _ _ found := by cases found
  read _ _ found := by cases found

theorem Sound.insert (sound : Sound catalog)
    (named : t.name = name) (read : ∀ c ∈ t.columns, Read c.dataType) (epoch) :
    Sound ⟨epoch,catalog.tables.insert name t⟩ := by
  constructor <;> intro other old found
  all_goals
    rw [findInsert] at found
    split at found
  · rename_i same
    cases found
    exact named.trans same
  · exact sound.named other old found
  · cases found
    exact read
  · exact sound.read other old found

theorem applySound {next} (sound : Sound catalog)
    (read : ∀ c ∈ change.columns, Read c.dataType) (done : apply catalog change = .ok next) : Sound next := by
  cases change with
  | createTable =>
    simp only [apply,createTable] at done
    split at done
    · cases done
    · cases done
      apply sound.insert
      · rfl
      · exact read
  | addColumn table =>
    simp only [apply,addColumn] at done
    split at done
    · cases done
    · rename_i entry found
      split at done
      · cases done
      · cases done
        apply sound.insert
        · exact sound.named table entry found
        · intro c mem
          rcases mem_append.mp mem with old | new
          · exact sound.read table entry found c old
          · exact read c new
  | dropTable =>
    simp only [apply,dropTable] at done
    split at done
    · cases done
      constructor <;> intro other t found
      all_goals
        rw [findErase] at found
        split at found
        · cases found
      · exact sound.named other t found
      · exact sound.read other t found
    · cases done

theorem alteredSound {changes : List Change} (read : ∀ change ∈ changes, ∀ c ∈ change.columns, Read c.dataType) (sound : Sound catalog) : Sound (changes.foldl alter catalog) := by
  induction changes generalizing catalog with
  | nil => exact sound
  | cons _ _ ih =>
    obtain ⟨here,later⟩ := forall_mem_cons.mp read
    refine ih later ?_
    unfold alter
    split
    · rename_i next done
      exact applySound sound here done
    · exact sound

theorem survivesRestartIff {Text : Type} [Json Text] {changes : List Change}
    (read : ∀ change ∈ changes, ∀ c ∈ change.columns, Read c.dataType) :
    load (save (changes.foldl alter .empty)) = .ok (changes.foldl alter .empty) ↔
      Unbounded (changes.foldl alter .empty) := by
  rw [loadSaved,Except.ok.injEq]
  exact restoredIff (alteredSound read emptySound)

theorem vectorRead : Read (.vector 3) :=
  ⟨[⟨.ident,"vector"⟩,⟨.punct .lParen,"("⟩,⟨.integer 3,"3"⟩,⟨.punct .rParen,")"⟩],[],by rfl⟩

theorem moodRead : Read (.named "MOOD") := ⟨[⟨.ident,"mood"⟩],[],by rfl⟩

theorem codeRead : Read (.varchar (some 8)) :=
  ⟨[⟨.ident,"varchar"⟩,⟨.punct .lParen,"("⟩,⟨.integer 8,"8"⟩,⟨.punct .rParen,")"⟩],[],by rfl⟩

def cats : List Change :=
  [.createTable "cats" 4 [⟨"face",.vector 3,true,false,false⟩] [],
    .addColumn "cats" ⟨"temper",.named "MOOD",false,false,true⟩ 6]

theorem catsSurvive : @load Snapshot verbatim (@save Snapshot verbatim (cats.foldl alter .empty)) =
    .ok (cats.foldl alter .empty) := by
  refine (@survivesRestartIff Snapshot verbatim cats ?_).mpr ?_
  · intro _ mem c inside
    simp only [cats,mem_cons,not_mem_nil,or_false] at mem
    rcases mem with rfl | rfl
    · cases mem_singleton.mp inside
      exact vectorRead
    · cases mem_singleton.mp inside
      exact moodRead
  · unfold Unbounded
    decide

def coupons : Change := .createTable "coupons" 1 [⟨"code",.varchar (some 8),false,false,false⟩] []

theorem lengthForgotten : (∀ c ∈ coupons.columns, Read c.dataType) ∧
    @load Snapshot verbatim (@save Snapshot verbatim (alter .empty coupons)) ≠ .ok (alter .empty coupons) := by
  constructor
  · intro c mem
    cases mem_singleton.mp mem
    exact codeRead
  · decide

end NoeDB.SchemaSnapshot
