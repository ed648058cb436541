import Mathlib.Init

/-! Syntax trees of statements (noedb-ast: expr.rs, name.rs, stmt.rs, window.rs), without
the source spans. -/
namespace NoeDB.SqlAst

inductive Literal where
  | null
  | integer (value : Int64)
  | float (value : Float)
  | string (value : String)
  | boolean (value : Bool)
  deriving DecidableEq

inductive BinaryOp where
  | eq | ne | lt | gt | le | ge | and | or | plus | minus | div | mod | mul | like | distance
  deriving DecidableEq, Repr

inductive UnaryOp where
  | minus | not
  deriving DecidableEq, Repr

inductive ColumnRef where
  | named (table : Option String) (column : String)
  | star
  | qualifiedStar (table : String)
  deriving DecidableEq, Repr

structure TableRef where
  name : String
  aliasName : Option String
  deriving DecidableEq, Repr

inductive SqlType where
  | int
  | boolean
  | float
  | varchar (maxLen : Option Nat)
  | text
  | date
  | timestamp
  | vector (dim : Nat)
  | named (name : String)
  deriving DecidableEq, Repr

inductive FrameMode where
  | rows | range
  deriving DecidableEq, Repr

inductive FrameBound where
  | unboundedPreceding
  | preceding (rows : Nat)
  | currentRow
  | following (rows : Nat)
  | unboundedFollowing
  deriving DecidableEq, Repr

structure WindowFrame where
  mode : FrameMode
  start : FrameBound
  stop : FrameBound
  deriving DecidableEq, Repr

inductive JoinKind where
  | inner | left
  deriving DecidableEq, Repr

inductive SetOpKind where
  | union | intersect | except
  deriving DecidableEq, Repr

mutual

inductive Expr where
  | literal (value : Literal)
  | column (ref : ColumnRef)
  | binary (op : BinaryOp) (left right : Expr)
  | unary (op : UnaryOp) (expr : Expr)
  | isNull (expr : Expr) (negated : Bool)
  | inList (expr : Expr) (values : List Expr) (negated : Bool)
  | inSubquery (expr : Expr) (query : SelectStmt) (negated : Bool)
  | existsQuery (query : SelectStmt) (negated : Bool)
  | scalarSubquery (query : SelectStmt)
  | between (expr low high : Expr) (negated : Bool)
  | paren (inner : Expr)
  | parameter (index : Nat)
  | currentUser
  | cast (expr : Expr) (dataType : SqlType)
  | function (name : String) (args : List Expr) (window : Option WindowSpec)

structure OrderKey where
  expr : Expr
  asc : Bool

structure WindowSpec where
  partitionBy : List Expr
  orderBy : List OrderKey
  frame : Option WindowFrame

structure SelectItem where
  expr : Expr
  aliasName : Option String

inductive FromItem where
  | table (ref : TableRef)
  | subquery (query : SelectStmt) (aliasName : String)

structure Join where
  kind : JoinKind
  table : TableRef
  condition : Expr

inductive CteBody where
  | select (query : SelectStmt)
  | union (anchor : SelectStmt) (all : Bool) (recursive : SelectStmt)

structure CteDef where
  name : String
  body : CteBody

structure WithClause where
  recursive : Bool
  ctes : List CteDef

structure CompoundSelect where
  op : SetOpKind
  all : Bool
  right : SelectStmt

structure SelectStmt where
  withClause : Option WithClause
  distinct : Bool
  items : List SelectItem
  from' : Option FromItem
  joins : List Join
  whereClause : Option Expr
  groupBy : List Expr
  havingClause : Option Expr
  orderBy : List OrderKey
  limit : Option Nat
  offset : Option Nat
  compound : Option CompoundSelect

end

structure ColumnDef where
  name : String
  dataType : SqlType
  notNull : Bool
  primaryKey : Bool
  unique : Bool
  deriving DecidableEq, Repr

structure InsertStmt where
  table : String
  columns : Option (List String)
  values : List (List Expr)

structure UpdateStmt where
  table : String
  assignments : List (String × Expr)
  whereClause : Option Expr

structure DeleteStmt where
  table : String
  whereClause : Option Expr

structure CreateTableStmt where
  name : String
  ifNotExists : Bool
  columns : List ColumnDef
  primaryKey : List String

structure CreateIndexStmt where
  name : String
  table : String
  columns : List String

structure CreatePolicyStmt where
  name : String
  table : String
  usingExpr : Expr

inductive AlterTableAction where
  | addColumn (column : ColumnDef)

structure AlterTableStmt where
  table : String
  action : AlterTableAction

inductive Statement where
  | select (stmt : SelectStmt)
  | insert (stmt : InsertStmt)
  | update (stmt : UpdateStmt)
  | delete (stmt : DeleteStmt)
  | createTable (stmt : CreateTableStmt)
  | dropTable (name : String)
  | createIndex (stmt : CreateIndexStmt)
  | prepare (name : String) (inner : Statement)
  | execute (name : String) (params : List Literal)
  | setRole (role : String)
  | enableRls (table : String)
  | alterTable (stmt : AlterTableStmt)
  | createPolicy (stmt : CreatePolicyStmt)
  | beginTxn
  | commitTxn
  | rollbackTxn
  | analyzeTable (table : String)

end NoeDB.SqlAst
