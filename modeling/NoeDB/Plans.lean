import NoeDB.SqlValue

/-! Query plans (noedb-planner: logical.rs, physical.rs) and the names of columns in join
conditions (join.rs). -/
namespace NoeDB.Plans
open ByteString Text SqlAst SqlValue

inductive AggFunc where
  | countStar
  | countCol (column : String)
  | sum (column : String)
  | avg (column : String)
  | min (column : String)
  | max (column : String)
  deriving DecidableEq, Repr

inductive WindowFunc where
  | rowNumber | rank | denseRank | sum | avg
  deriving DecidableEq, Repr

structure WindowCompute where
  func : WindowFunc
  arg : Option Expr
  spec : WindowSpec
  outputName : String

/- A qualifier is what the names of a scan's columns begin with; it may be empty. -/
inductive LogicalPlan where
  | scan (table qualifier : String)
  | filter (input : LogicalPlan) (predicate : Expr)
  | project (input : LogicalPlan) (items : List SelectItem)
  | join (left right : LogicalPlan) (condition : Expr) (leftOuter : Bool)
  | aggregate (input : LogicalPlan) (groupBy : List String) (aggs : List (String × AggFunc))
  | sort (input : LogicalPlan) (keys : List (String × Bool))
  | limit (input : LogicalPlan) (limit offset : Nat)
  | window (input : LogicalPlan) (windows : List WindowCompute)
  | semiJoin (left right : LogicalPlan) (leftKey rightKey : String) (corrOn : Option Expr) (negated : Bool)
  | cteScan (name qualifier : String)
  | subqueryScan (input : LogicalPlan) (aliasName : String)
  | setOp (left right : LogicalPlan) (op : SetOpKind) (all : Bool)
  | distinct (input : LogicalPlan)

inductive PhysicalPlan where
  | seqScan (table qualifier : String) (columns : Option (List String))
  | pkLookup (table : String) (rowId : Bytes) (columns : Option (List String))
  | indexScan (table column : String) (pointKey : Option Bytes) (columns : Option (List String))
  | filter (input : PhysicalPlan) (predicate : Expr)
  | project (input : PhysicalPlan) (items : List SelectItem)
  | hashJoin (left right : PhysicalPlan) (condition : Expr) (leftKey rightKey : String) (leftOuter : Bool)
  | nestedLoopJoin (left right : PhysicalPlan) (condition : Expr)
  | mergeJoin (left right : PhysicalPlan) (condition : Expr) (leftKey rightKey : String)
  | aggregate (input : PhysicalPlan) (groupBy : List String) (aggs : List (String × AggFunc))
  | sort (input : PhysicalPlan) (keys : List (String × Bool)) (topK : Option Nat)
  | limit (input : PhysicalPlan) (limit offset : Nat)
  | window (input : PhysicalPlan) (windows : List WindowCompute)
  | semiJoin (left right : PhysicalPlan) (leftKey rightKey : String) (corrOn : Option Expr) (negated : Bool)
  | cteScan (name qualifier : String) (columns : Option (List String))
  | subqueryScan (input : PhysicalPlan) (qualifier : String) (columns : Option (List String))
  | setOp (left right : PhysicalPlan) (op : SetOpKind) (all : Bool)
  | dedup (input : PhysicalPlan)

section

structure EquiJoinKeys where
  left : String
  right : String
  deriving DecidableEq, Repr

def qualified (table column : String) : String := table ++ "." ++ column

def columnName : Expr → Option String
  | .column (.named (some table) column) => some (qualified table column)
  | .column (.named none column) => some column
  | _ => none

def extractEquiJoin : Expr → Option EquiJoinKeys
  | .binary .eq left right => do
      let leftCol ← columnName left
      let rightCol ← columnName right
      some ⟨leftCol,rightCol⟩
  | .paren inner => extractEquiJoin inner
  | _ => none

def tableAliases : LogicalPlan → List String
  | .scan _ qualifier => if qualifier = "" then [] else [qualifier]
  | .cteScan _ qualifier => if qualifier = "" then [] else [qualifier]
  | .subqueryScan input aliasName => tableAliases input ++ [aliasName]
  | .join left right _ _ => tableAliases left ++ tableAliases right
  | .setOp left right _ _ => tableAliases left ++ tableAliases right
  | .filter input _ => tableAliases input
  | .project input _ => tableAliases input
  | .aggregate input _ _ => tableAliases input
  | .sort input _ => tableAliases input
  | .limit input _ _ => tableAliases input
  | .window input _ => tableAliases input
  | .distinct input => tableAliases input
  | .semiJoin left _ _ _ _ _ => tableAliases left

def ownedBy (aliases : List String) (column : String) : Bool :=
  match rsplitOnce '.' column with
  | some (table,_) => table ∈ aliases
  | none => false

def orientJoinKeys (left right : LogicalPlan) (keys : EquiJoinKeys) : EquiJoinKeys :=
  if ownedBy (tableAliases left) keys.left ∧ ownedBy (tableAliases right) keys.right then keys
  else if ownedBy (tableAliases left) keys.right ∧ ownedBy (tableAliases right) keys.left then ⟨keys.right,keys.left⟩
  else keys

def bareName (wanted stored : String) : Bool :=
  match rsplitOnce '.' stored with
  | some (_,bare) => bare = wanted
  | none => false

def columnNameMatches (stored wanted : String) : Bool :=
  if stored = wanted then true
  else if bareName wanted stored then true
  else match rsplitOnce '.' wanted with
    | some (_,bare) => stored = bare || bareName bare stored
    | none => false

def joinKeyValue (row : Row) (column : String) : Option Bytes :=
  (row.find? fun field => columnNameMatches field.1 column).map fun field => field.2.asBytes

def joinKeys (left right : LogicalPlan) (condition : Expr) : EquiJoinKeys :=
  match extractEquiJoin condition with
  | some keys => orientJoinKeys left right keys
  | none => ⟨"",""⟩

end
end NoeDB.Plans
