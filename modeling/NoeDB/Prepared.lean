import NoeDB.Dml

/-! Prepared statements (prepared.rs): which parameters a statement counts, and how the
values of an EXECUTE are put in their place. -/
namespace NoeDB.Prepared
open SqlAst Dml

mutual

/- `substitute_expr`. Functions and scalar subqueries are copied as they are. -/
def substituteExpr (params : List Literal) : Expr → Expr
  | .parameter index => .literal ((params[index-1]?).getD .null)
  | .binary op left right => .binary op (substituteExpr params left) (substituteExpr params right)
  | .unary op expr => .unary op (substituteExpr params expr)
  | .isNull expr negated => .isNull (substituteExpr params expr) negated
  | .inList expr values negated => .inList (substituteExpr params expr) (substituteExprs params values) negated
  | .inSubquery expr query negated => .inSubquery (substituteExpr params expr) (substituteSelect params query) negated
  | .existsQuery query negated => .existsQuery (substituteSelect params query) negated
  | .between expr low high negated =>
      .between (substituteExpr params expr) (substituteExpr params low) (substituteExpr params high) negated
  | .paren inner => .paren (substituteExpr params inner)
  | .cast expr dataType => .cast (substituteExpr params expr) dataType
  | other => other

def substituteExprs (params : List Literal) : List Expr → List Expr
  | [] => []
  | expr :: rest => substituteExpr params expr :: substituteExprs params rest

def substituteItems (params : List Literal) : List SelectItem → List SelectItem
  | [] => []
  | ⟨expr,aliasName⟩ :: rest => ⟨substituteExpr params expr,aliasName⟩ :: substituteItems params rest

def substituteCtes (params : List Literal) : List CteDef → List CteDef
  | [] => []
  | ⟨name,.select query⟩ :: rest => ⟨name,.select (substituteSelect params query)⟩ :: substituteCtes params rest
  | ⟨name,.union anchor all recursive⟩ :: rest =>
      ⟨name,.union (substituteSelect params anchor) all (substituteSelect params recursive)⟩ ::
        substituteCtes params rest

def substituteOption (params : List Literal) : Option Expr → Option Expr
  | none => none
  | some expr => some (substituteExpr params expr)

def substituteWith (params : List Literal) : Option WithClause → Option WithClause
  | none => none
  | some ⟨recursive,ctes⟩ => some ⟨recursive,substituteCtes params ctes⟩

def substituteCompound (params : List Literal) : Option CompoundSelect → Option CompoundSelect
  | none => none
  | some ⟨op,all,right⟩ => some ⟨op,all,substituteSelect params right⟩

/- `substitute_select`. FROM, the joins and ORDER BY are copied as they are. -/
def substituteSelect (params : List Literal) : SelectStmt → SelectStmt
  | ⟨withClause,distinct,items,source,joins,whereClause,groupBy,havingClause,orderBy,limit,offset,compound⟩ =>
      { withClause := substituteWith params withClause
        distinct
        items := substituteItems params items
        from' := source
        joins
        whereClause := substituteOption params whereClause
        groupBy := substituteExprs params groupBy
        havingClause := substituteOption params havingClause
        orderBy
        limit
        offset
        compound := substituteCompound params compound }

end

def substituteParams (params : List Literal) : Statement → Statement
  | .select stmt => .select (substituteSelect params stmt)
  | other => other

section

variable {σ : Type} (f : Expr → σ → σ)

mutual

/- `walk_expr`: what the visitor makes of its state along the expression. Of a subquery
after IN only the WHERE clause and the select list are visited. -/
def walkExpr : Expr → σ → σ
  | .binary op left right,state => walkExpr right (walkExpr left (f (.binary op left right) state))
  | .unary op expr,state => walkExpr expr (f (.unary op expr) state)
  | .isNull expr negated,state => walkExpr expr (f (.isNull expr negated) state)
  | .inList expr values negated,state => walkExprs values (walkExpr expr (f (.inList expr values negated) state))
  | .inSubquery expr query negated,state =>
      let visited := walkExpr expr (f (.inSubquery expr query negated) state)
      match query with
      | ⟨_,_,items,_,_,whereClause,_,_,_,_,_,_⟩ => walkItems items (walkOption whereClause visited)
  | .between expr low high negated,state =>
      walkExpr high (walkExpr low (walkExpr expr (f (.between expr low high negated) state)))
  | .function name args window,state =>
      walkWindow window (walkExprs args (f (.function name args window) state))
  | .paren inner,state => walkExpr inner (f (.paren inner) state)
  | .cast expr dataType,state => walkExpr expr (f (.cast expr dataType) state)
  | other,state => f other state

def walkExprs : List Expr → σ → σ
  | [],state => state
  | expr :: rest,state => walkExprs rest (walkExpr expr state)

def walkOption : Option Expr → σ → σ
  | none,state => state
  | some expr,state => walkExpr expr state

def walkWindow : Option WindowSpec → σ → σ
  | none,state => state
  | some ⟨partitionBy,orderBy,_⟩,state => walkKeys orderBy (walkExprs partitionBy state)

def walkKeys : List OrderKey → σ → σ
  | [],state => state
  | ⟨expr,_⟩ :: rest,state => walkKeys rest (walkExpr expr state)

def walkItems : List SelectItem → σ → σ
  | [],state => state
  | ⟨expr,_⟩ :: rest,state => walkItems rest (walkExpr expr state)

end

def walkSelectStmt : SelectStmt → σ → σ
  | ⟨_,_,items,_,_,whereClause,_,_,_,_,_,compound⟩,state =>
      let branched := match compound with
        | none => state
        | some ⟨_,_,right⟩ => walkSelectStmt right state
      walkOption f whereClause (walkItems f items branched)

def walkCteBody : CteBody → σ → σ
  | .select query,state => walkSelectStmt f query state
  | .union anchor _ recursive,state => walkSelectStmt f recursive (walkSelectStmt f anchor state)

def walkCtes : List CteDef → σ → σ
  | [],state => state
  | cte :: rest,state => walkCtes rest (walkCteBody f cte.body state)

def walkStmt : Statement → σ → σ
  | .select stmt,state =>
      let named := match stmt.withClause with
        | none => state
        | some clause => walkCtes f clause.ctes state
      walkOption f stmt.whereClause (walkItems f stmt.items named)
  | _,state => state

end

def highestVisited (expr : Expr) (highest : Nat) : Nat :=
  match expr with
  | .parameter index => max highest index
  | _ => highest

def maxParamIndex (stmt : Statement) : Nat := walkStmt highestVisited stmt 0

/- A length that needs more than sixteen bits counts as 65535. -/
def clamped (length : Nat) : Nat := if length < 2^16 then length else 65535

def bindParameters (stmt : Statement) (params : List Literal) : Except EngineFault Statement :=
  if clamped params.length ≠ maxParamIndex stmt then
    .error (.error (.invalidSql "parameter count mismatch"))
  else .ok (substituteParams params stmt)

end NoeDB.Prepared
