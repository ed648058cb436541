import NoeDB.Lexer
import NoeDB.SqlAst

/-! The statement parser (noedb-parser) over the tokens of the lexer. A parser takes the
tokens that are left and returns what it has read with the rest; spans and the skipping
after an error, which change no result, are left out. Expressions and queries contain
each other: their parsers take the parsers of the parts one level down, and the number
of levels never exceeds the number of tokens. -/
namespace NoeDB.Parser
open ByteString Text Keywords Lexer SqlAst

structure Tok where
  kind : Token
  text : String

abbrev Tokens := List Tok

inductive ParseError where
  | lex (fault : LexFault)
  | unexpectedToken (context : String)
  | expectedKeyword (expected : Keyword)
  | expectedPunctuation (expected : Punctuation)
  | depleted
  deriving DecidableEq

abbrev Outcome := Except ParseError
abbrev Reader (α : Type) := Tokens → Outcome (α × Tokens)

/- Where one of these holds the next token is not the end of the input, so that `bump`
goes on to the tail. -/
def atKeyword (word : Keyword) : Tokens → Bool
  | ⟨.keyword found,_⟩ :: _ => found == word
  | _ => false

def atPunct (mark : Punctuation) : Tokens → Bool
  | ⟨.punct found,_⟩ :: _ => found == mark
  | _ => false

def headOperator : Tokens → Option Operator
  | ⟨.op operator,_⟩ :: _ => some operator
  | _ => none

def expectKeyword (word : Keyword) (toks : Tokens) : Outcome Tokens :=
  if atKeyword word toks then .ok toks.tail else .error (.expectedKeyword word)

def expectPunct (mark : Punctuation) (toks : Tokens) : Outcome Tokens :=
  if atPunct mark toks then .ok toks.tail else .error (.expectedPunctuation mark)

def dropKeyword (word : Keyword) (toks : Tokens) : Tokens := if atKeyword word toks then toks.tail else toks

def isAtEnd : Tokens → Bool
  | ⟨.eof,_⟩ :: _ => true
  | _ => false

def expectEof (toks : Tokens) : Outcome Unit :=
  if isAtEnd toks then .ok () else .error (.unexpectedToken "end of statement")

def parseIdent : Tokens → Outcome (String × Tokens)
  | ⟨.ident,text⟩ :: rest => .ok (text,rest)
  | ⟨.quotedIdent value,_⟩ :: rest => .ok (value,rest)
  | ⟨.keyword _,text⟩ :: rest => .ok (text,rest)
  | _ => .error (.unexpectedToken "identifier")

def startsName : Tokens → Bool
  | ⟨.ident,_⟩ :: _ => true
  | ⟨.quotedIdent _,_⟩ :: _ => true
  | _ => false

def separated {α : Type} (item : Reader α) : Nat → Tokens → Outcome (List α × Tokens)
  | 0,_ => .error .depleted
  | fuel+1,toks => do
      let (first,toks) ← item toks
      if atPunct .comma toks then
        let (more,toks) ← separated item fuel toks.tail
        .ok (first :: more,toks)
      else .ok ([first],toks)

def commaList {α : Type} (item : Reader α) (toks : Tokens) : Outcome (List α × Tokens) :=
  separated item (toks.length+1) toks

def untilClose {α : Type} (item : Reader α) (toks : Tokens) : Outcome (List α × Tokens) :=
  if atPunct .rParen toks then .ok ([],toks) else commaList item toks

def closedList {α : Type} (item : Reader α) (toks : Tokens) : Outcome (List α × Tokens) := do
  let (values,toks) ← untilClose item toks
  let toks ← expectPunct .rParen toks
  .ok (values,toks)

def parenthesised {α : Type} (item : Reader α) (toks : Tokens) : Outcome (α × Tokens) := do
  let toks ← expectPunct .lParen toks
  let (value,toks) ← item toks
  let toks ← expectPunct .rParen toks
  .ok (value,toks)

def parseTypeLength : Tokens → Outcome (Nat × Tokens)
  | ⟨.integer value,_⟩ :: rest =>
      if 0 ≤ value.toInt ∧ value.toInt < 2^32 then .ok (value.toInt.toNat,rest)
      else .error (.unexpectedToken "type length")
  | _ => .error (.unexpectedToken "type length")

def parseSqlType (toks : Tokens) : Outcome (SqlType × Tokens) := do
  let (name,toks) ← parseIdent toks
  let upper := asciiUpper name
  if upper = "INT" ∨ upper = "INTEGER" ∨ upper = "BIGINT" then .ok (.int,toks)
  else if upper = "BOOLEAN" ∨ upper = "BOOL" then .ok (.boolean,toks)
  else if upper = "FLOAT" ∨ upper = "REAL" ∨ upper = "DOUBLE" then .ok (.float,toks)
  else if upper = "TEXT" then .ok (.text,toks)
  else if upper = "DATE" then .ok (.date,toks)
  else if upper = "TIMESTAMP" ∨ upper = "TIMESTAMPTZ" then .ok (.timestamp,toks)
  else if upper = "VARCHAR" ∨ upper = "CHAR" then
    if atPunct .lParen toks then
      let (len,toks) ← parenthesised parseTypeLength toks
      .ok (.varchar (some len),toks)
    else .ok (.varchar none,toks)
  else if upper = "VECTOR" then
    let (dim,toks) ← parenthesised parseTypeLength toks
    .ok (.vector dim,toks)
  else .ok (.named upper,toks)

inductive Prec where
  | or | and | compare | add
  deriving DecidableEq, Repr

def Prec.rank : Prec → Nat
  | .or => 1
  | .and => 2
  | .compare => 3
  | .add => 4

structure Parsers where
  expr : Prec → Tokens → Outcome (Expr × Tokens)
  selectInner : Bool → Tokens → Outcome (SelectStmt × Tokens)

def parseLiteral : Tokens → Outcome (Literal × Tokens)
  | ⟨.integer value,_⟩ :: rest => .ok (.integer value,rest)
  | ⟨.float value,_⟩ :: rest => .ok (.float value,rest)
  | ⟨.string value,_⟩ :: rest => .ok (.string value,rest)
  | ⟨.keyword .null,_⟩ :: rest => .ok (.null,rest)
  | ⟨.keyword .true,_⟩ :: rest => .ok (.boolean true,rest)
  | ⟨.keyword .false,_⟩ :: rest => .ok (.boolean false,rest)
  | _ => .error (.unexpectedToken "literal")

def parseUnsigned : Tokens → Outcome (Nat × Tokens)
  | ⟨.integer value,_⟩ :: rest =>
      if 0 ≤ value.toInt then .ok (value.toInt.toNat,rest) else .error (.unexpectedToken "LIMIT/OFFSET integer")
  | _ => .error (.unexpectedToken "LIMIT/OFFSET integer")

def parseFrameOffset : Tokens → Outcome (Nat × Tokens)
  | ⟨.integer value,_⟩ :: rest =>
      if 0 ≤ value.toInt then .ok (value.toInt.toNat,rest) else .error (.unexpectedToken "frame offset")
  | _ => .error (.unexpectedToken "frame offset")

def parseFrameBound (toks : Tokens) : Outcome (FrameBound × Tokens) := do
  if atKeyword .unbounded toks then
    let toks := toks.tail
    if atKeyword .preceding toks then .ok (.unboundedPreceding,toks.tail)
    else
      let toks ← expectKeyword .following toks
      .ok (.unboundedFollowing,toks)
  else if atKeyword .current toks then
    let toks ← expectKeyword .row toks.tail
    .ok (.currentRow,toks)
  else
    let (rows,toks) ← parseFrameOffset toks
    if atKeyword .preceding toks then .ok (.preceding rows,toks.tail)
    else
      let toks ← expectKeyword .following toks
      .ok (.following rows,toks)

def parseWindowFrame (toks : Tokens) : Outcome (WindowFrame × Tokens) := do
  let (mode,toks) ←
    if atKeyword .rows toks then .ok (.rows,toks.tail)
    else if atKeyword .range toks then .ok (.range,toks.tail)
    else .error (.unexpectedToken "ROWS or RANGE")
  let toks ← expectKeyword .between toks
  let (start,toks) ← parseFrameBound toks
  let toks ← expectKeyword .and toks
  let (stop,toks) ← parseFrameBound toks
  .ok (⟨mode,start,stop⟩,toks)

section

variable (P : Parsers)

def parseExpr (toks : Tokens) : Outcome (Expr × Tokens) := P.expr .or toks

def parseCommaExprs (toks : Tokens) : Outcome (List Expr × Tokens) := commaList (parseExpr P) toks

def parseOrderKey (toks : Tokens) : Outcome (OrderKey × Tokens) := do
  let (expr,toks) ← parseExpr P toks
  if atKeyword .desc toks then .ok (⟨expr,false⟩,toks.tail)
  else .ok (⟨expr,true⟩,dropKeyword .asc toks)

def parseByClause {α : Type} (word : Keyword) (item : Reader α) (toks : Tokens) : Outcome (List α × Tokens) := do
  if atKeyword word toks then
    let toks ← expectKeyword .by' toks.tail
    commaList item toks
  else .ok ([],toks)

def parseWindowBody (toks : Tokens) : Outcome (WindowSpec × Tokens) := do
  let (partitionBy,toks) ← parseByClause .partition (parseExpr P) toks
  let (orderBy,toks) ← parseByClause .order (parseOrderKey P) toks
  if atKeyword .rows toks || atKeyword .range toks then
    let (frame,toks) ← parseWindowFrame toks
    .ok (⟨partitionBy,orderBy,some frame⟩,toks)
  else .ok (⟨partitionBy,orderBy,none⟩,toks)

def parseWindowSpec (toks : Tokens) : Outcome (WindowSpec × Tokens) := parenthesised (parseWindowBody P) toks

def parseOptionalAlias (toks : Tokens) : Outcome (Option String × Tokens) := do
  if atKeyword .as' toks then
    let (name,toks) ← parseIdent toks.tail
    .ok (some name,toks)
  else if startsName toks && (atPunct .comma toks.tail || atKeyword .from' toks.tail ||
      atKeyword .where' toks.tail || isAtEnd toks.tail) then
    let (name,toks) ← parseIdent toks
    .ok (some name,toks)
  else .ok (none,toks)

def isTableAliasBoundary (next : Tokens) (stopAtRparen : Bool) : Bool :=
  atKeyword .inner next || atKeyword .left next || atKeyword .join next || atKeyword .order next ||
    atKeyword .limit next || atKeyword .group next || atKeyword .where' next || atKeyword .on' next ||
    atKeyword .union next || atKeyword .intersect next || atKeyword .except next || atKeyword .offset next ||
    atPunct .rParen next || atPunct .comma next || isAtEnd next || (stopAtRparen && atPunct .rParen next)

def parseTableAlias (stopAtRparen : Bool) (toks : Tokens) : Outcome (Option String × Tokens) := do
  if atKeyword .as' toks then
    let (name,toks) ← parseIdent toks.tail
    .ok (some name,toks)
  else if startsName toks && isTableAliasBoundary toks.tail stopAtRparen then
    let (name,toks) ← parseIdent toks
    .ok (some name,toks)
  else .ok (none,toks)

def parseTableRef (stopAtRparen : Bool) (toks : Tokens) : Outcome (TableRef × Tokens) := do
  let (name,toks) ← parseIdent toks
  let (aliasName,toks) ← parseTableAlias stopAtRparen toks
  .ok (⟨name,aliasName⟩,toks)

def parseFromItem (stopAtRparen : Bool) (toks : Tokens) : Outcome (FromItem × Tokens) := do
  if atPunct .lParen toks then
    let (query,toks) ← parenthesised (P.selectInner true) toks
    let (aliasName,toks) ← parseIdent (dropKeyword .as' toks)
    .ok (.subquery query aliasName,toks)
  else
    let (ref,toks) ← parseTableRef stopAtRparen toks
    .ok (.table ref,toks)

def parseJoinKind (toks : Tokens) : Outcome (JoinKind × Tokens) := do
  if atKeyword .inner toks then
    let toks ← expectKeyword .join toks.tail
    .ok (.inner,toks)
  else if atKeyword .left toks then
    let toks ← expectKeyword .join (dropKeyword .outer toks.tail)
    .ok (.left,toks)
  else
    let toks ← expectKeyword .join toks
    .ok (.inner,toks)

def parseJoin (stopAtRparen : Bool) (toks : Tokens) : Outcome (Join × Tokens) := do
  let (kind,toks) ← parseJoinKind toks
  let (table,toks) ← parseTableRef stopAtRparen toks
  let toks ← expectKeyword .on' toks
  let (condition,toks) ← parseExpr P toks
  .ok (⟨kind,table,condition⟩,toks)

def joinLoop (stopAtRparen : Bool) : Nat → Tokens → Outcome (List Join × Tokens)
  | 0,_ => .error .depleted
  | fuel+1,toks => do
      if atKeyword .inner toks || atKeyword .left toks || atKeyword .join toks then
        let (first,toks) ← parseJoin P stopAtRparen toks
        let (more,toks) ← joinLoop stopAtRparen fuel toks
        .ok (first :: more,toks)
      else .ok ([],toks)

def parseOptional {α : Type} (word : Keyword) (item : Reader α) (toks : Tokens) : Outcome (Option α × Tokens) := do
  if atKeyword word toks then
    let (value,toks) ← item toks.tail
    .ok (some value,toks)
  else .ok (none,toks)

def parseSelectItem (toks : Tokens) : Outcome (SelectItem × Tokens) := do
  let (expr,toks) ← parseExpr P toks
  let (aliasName,toks) ← parseOptionalAlias toks
  .ok (⟨expr,aliasName⟩,toks)

/- No caller asks for the end of the input here. -/
def parseSelectInner (stopAtRparen : Bool) (toks : Tokens) : Outcome (SelectStmt × Tokens) := do
  let toks ← expectKeyword .select toks
  let distinct := atKeyword .distinct toks
  let (items,toks) ← commaList (parseSelectItem P) (dropKeyword .distinct toks)
  let (source,toks) ← parseOptional .from' (parseFromItem P stopAtRparen) toks
  let (joins,toks) ← joinLoop P stopAtRparen (toks.length+1) toks
  let (whereClause,toks) ← parseOptional .where' (parseExpr P) toks
  let (groupBy,toks) ← parseByClause .group (parseExpr P) toks
  let (havingClause,toks) ← parseOptional .having (parseExpr P) toks
  let (orderBy,toks) ← parseByClause .order (parseOrderKey P) toks
  let (limit,toks) ← parseOptional .limit parseUnsigned toks
  let (offset,toks) ← parseOptional .offset parseUnsigned toks
  .ok (⟨none,distinct,items,source,joins,whereClause,groupBy,havingClause,orderBy,limit,offset,none⟩,toks)

def parseCteBody (toks : Tokens) : Outcome (CteBody × Tokens) := do
  let (anchor,toks) ← P.selectInner true toks
  if atKeyword .union toks then
    let toks := toks.tail
    let (recursive,rest) ← P.selectInner true (dropKeyword .all toks)
    let rest ← expectPunct .rParen rest
    .ok (.union anchor (atKeyword .all toks) recursive,rest)
  else
    let toks ← expectPunct .rParen toks
    .ok (.select anchor,toks)

def parseCteDef (toks : Tokens) : Outcome (CteDef × Tokens) := do
  let (name,toks) ← parseIdent toks
  let toks ← expectKeyword .as' toks
  let toks ← expectPunct .lParen toks
  let (body,toks) ← parseCteBody P toks
  .ok (⟨name,body⟩,toks)

def parseOptionalWith (toks : Tokens) : Outcome (Option WithClause × Tokens) := do
  if atKeyword .with' toks then
    let toks := toks.tail
    let (ctes,rest) ← commaList (parseCteDef P) (dropKeyword .recursive toks)
    .ok (some ⟨atKeyword .recursive toks,ctes⟩,rest)
  else .ok (none,toks)

def parseSelectSubquery (toks : Tokens) : Outcome (SelectStmt × Tokens) := do
  let (withClause,toks) ← parseOptionalWith P toks
  let (stmt,toks) ← P.selectInner false toks
  .ok ({ stmt with withClause := withClause },toks)

def parseColumnFromIdent (first : String) (toks : Tokens) : Outcome (Expr × Tokens) := do
  if atPunct .dot toks then
    if atPunct .star toks.tail then .ok (.column (.qualifiedStar first),toks.tail.tail)
    else
      let (column,toks) ← parseIdent toks.tail
      .ok (.column (.named (some first) column),toks)
  else .ok (.column (.named none first),toks)

def parseArguments (toks : Tokens) : Outcome (List Expr × Tokens) := closedList (parseExpr P) toks

def parseIdentExpr (toks : Tokens) : Outcome (Expr × Tokens) := do
  let (first,toks) ← parseIdent toks
  if atPunct .lParen toks then
    let (args,toks) ← parseArguments P toks.tail
    .ok (.function first args none,toks)
  else parseColumnFromIdent first toks

def parseAtom : Tokens → Outcome (Expr × Tokens)
  | ⟨.integer value,_⟩ :: rest => .ok (.literal (.integer value),rest)
  | ⟨.float value,_⟩ :: rest => .ok (.literal (.float value),rest)
  | ⟨.string value,_⟩ :: rest => .ok (.literal (.string value),rest)
  | ⟨.keyword .null,_⟩ :: rest => .ok (.literal .null,rest)
  | ⟨.keyword .true,_⟩ :: rest => .ok (.literal (.boolean true),rest)
  | ⟨.keyword .false,_⟩ :: rest => .ok (.literal (.boolean false),rest)
  | ⟨.ident,text⟩ :: rest => parseIdentExpr P (⟨.ident,text⟩ :: rest)
  | ⟨.quotedIdent value,text⟩ :: rest => parseIdentExpr P (⟨.quotedIdent value,text⟩ :: rest)
  | ⟨.keyword word,text⟩ :: rest => parseIdentExpr P (⟨.keyword word,text⟩ :: rest)
  | ⟨.punct .star,_⟩ :: rest => .ok (.column .star,rest)
  | _ => .error (.unexpectedToken "expression")

def parseCast (toks : Tokens) : Outcome (Expr × Tokens) := do
  let toks ← expectPunct .lParen toks
  let (inner,toks) ← parseExpr P toks
  let toks ← expectKeyword .as' toks
  let (dataType,toks) ← parseSqlType toks
  let toks ← expectPunct .rParen toks
  .ok (.cast inner dataType,toks)

def parseExists (negated : Bool) (toks : Tokens) : Outcome (Expr × Tokens) := do
  let (query,toks) ← parenthesised (parseSelectSubquery P) toks
  .ok (.existsQuery query negated,toks)

def parseGroup (toks : Tokens) : Outcome (Expr × Tokens) := do
  if atKeyword .select toks || atKeyword .with' toks then
    let (query,toks) ← parseSelectSubquery P toks
    let toks ← expectPunct .rParen toks
    .ok (.scalarSubquery query,toks)
  else
    let (inner,toks) ← parseExpr P toks
    let toks ← expectPunct .rParen toks
    .ok (.paren inner,toks)

def parseUnary (op : UnaryOp) (prec : Prec) (toks : Tokens) : Outcome (Expr × Tokens) := do
  let (inner,toks) ← P.expr prec toks
  .ok (.unary op inner,toks)

def parseParameter : Tokens → Outcome (Expr × Tokens)
  | ⟨.parameter index,_⟩ :: rest => .ok (.parameter index,rest)
  | toks => parseAtom P toks

def parsePrefix (toks : Tokens) : Outcome (Expr × Tokens) :=
  if atKeyword .cast toks then parseCast P toks.tail
  else if atKeyword .not toks && atKeyword .exists' toks.tail then parseExists P true toks.tail.tail
  else if atKeyword .not toks then parseUnary P .not .and toks.tail
  else if headOperator toks = some .minus then parseUnary P .minus .add toks.tail
  else if atKeyword .exists' toks then parseExists P false toks.tail
  else if atPunct .lParen toks then parseGroup P toks.tail
  else if atKeyword .currentUser toks then .ok (.currentUser,toks.tail)
  else parseParameter P toks

def operatorToBinary : Operator → BinaryOp
  | .eq => .eq
  | .ne => .ne
  | .lt => .lt
  | .gt => .gt
  | .le => .le
  | .ge => .ge
  | .plus => .plus
  | .minus => .minus
  | .div => .div
  | .mod => .mod
  | .distance => .distance

def compares : Operator → Bool
  | .eq | .ne | .lt | .gt | .le | .ge | .distance => true
  | .plus | .minus | .div | .mod => false

/- One turn of the loop of `parse_expr_prec` either reads more of the expression or ends
the loop, which no result stands for. -/
abbrev Turn := Outcome (Option Expr × Tokens)

def inTurn (left : Expr) (negated : Bool) (toks : Tokens) : Turn := do
  let toks ← expectPunct .lParen toks
  if atKeyword .select toks then
    let (query,toks) ← parseSelectSubquery P toks
    let toks ← expectPunct .rParen toks
    .ok (some (.inSubquery left query negated),toks)
  else
    let (values,toks) ← parseArguments P toks
    .ok (some (.inList left values negated),toks)

def betweenTurn (left : Expr) (negated : Bool) (toks : Tokens) : Turn := do
  let (low,toks) ← P.expr .compare toks
  let toks ← expectKeyword .and toks
  let (high,toks) ← P.expr .compare toks
  .ok (some (.between left low high negated),toks)

def overTurn : Expr → Tokens → Turn
  | .function name args _,toks => do
      let (spec,toks) ← parseWindowSpec P toks
      .ok (some (.function name args (some spec)),toks)
  | _,_ => .error (.unexpectedToken "OVER after non-function")

def isNullTurn (left : Expr) (toks : Tokens) : Turn := do
  let rest ← expectKeyword .null (dropKeyword .not toks)
  .ok (some (.isNull left (atKeyword .not toks)),rest)

def operandTurn (op : BinaryOp) (prec : Prec) (left : Expr) (toks : Tokens) : Turn := do
  let (right,toks) ← P.expr prec toks
  .ok (some (.binary op left right),toks)

def binaryTurn (min : Prec) (left : Expr) (toks : Tokens) : Turn :=
  if min.rank ≤ Prec.or.rank ∧ atKeyword .or toks then operandTurn P .or .and left toks.tail
  else if min.rank ≤ Prec.and.rank ∧ atKeyword .and toks then operandTurn P .and .compare left toks.tail
  else
    match headOperator toks with
    | some op =>
        if compares op then
          if min.rank ≤ Prec.compare.rank then operandTurn P (operatorToBinary op) .compare left toks.tail
          else .ok (none,toks)
        else operandTurn P (operatorToBinary op) .add left toks.tail
    | none => if atPunct .star toks then operandTurn P .mul .add left toks.tail else .ok (none,toks)

def laterTurn (min : Prec) (left : Expr) (toks : Tokens) : Turn :=
  if atKeyword .between toks then betweenTurn P left false toks.tail
  else if atKeyword .over' toks then overTurn P left toks.tail
  else if atKeyword .like toks then operandTurn P .like .compare left toks.tail
  else binaryTurn P min left toks

def exprTurn (min : Prec) (left : Expr) (toks : Tokens) : Turn :=
  if atKeyword .is toks then isNullTurn left toks.tail
  else if atKeyword .not toks && atKeyword .in' toks.tail then inTurn P left true toks.tail.tail
  else if atKeyword .in' toks then inTurn P left false toks.tail
  else if atKeyword .not toks && atKeyword .between toks.tail then betweenTurn P left true toks.tail.tail
  -- A `NOT` that `BETWEEN` does not follow has been read all the same.
  else laterTurn P min left (dropKeyword .not toks)

def exprLoop (min : Prec) : Nat → Expr → Tokens → Outcome (Expr × Tokens)
  | 0,_,_ => .error .depleted
  | fuel+1,left,toks => do
      match ← exprTurn P min left toks with
      | (some next,toks) => exprLoop min fuel next toks
      | (none,toks) => .ok (left,toks)

def parseExprPrec (min : Prec) (toks : Tokens) : Outcome (Expr × Tokens) := do
  let (left,rest) ← parsePrefix P toks
  exprLoop P min (rest.length+1) left rest

end

def parsers : Nat → Parsers
  | 0 => ⟨fun _ _ => .error .depleted,fun _ _ => .error .depleted⟩
  | depth+1 => ⟨parseExprPrec (parsers depth),parseSelectInner (parsers depth)⟩

section

variable (P : Parsers)

def compoundOp (toks : Tokens) : Option SetOpKind :=
  if atKeyword .union toks then some .union
  else if atKeyword .intersect toks then some .intersect
  else if atKeyword .except toks then some .except
  else none

def parseCompoundChain : Nat → Tokens → Outcome (Option CompoundSelect × Tokens)
  | 0,_ => .error .depleted
  | fuel+1,toks => do
      match compoundOp toks with
      | none => .ok (none,toks)
      | some op =>
          let toks := toks.tail
          let (right,rest) ← P.selectInner false (dropKeyword .all toks)
          let (compound,rest) ← parseCompoundChain fuel rest
          .ok (some ⟨op,atKeyword .all toks,{ right with compound := compound }⟩,rest)

def parseSelect (toks : Tokens) : Outcome (Statement × Tokens) := do
  let (withClause,toks) ← parseOptionalWith P toks
  let (stmt,toks) ← P.selectInner false toks
  let (compound,toks) ← parseCompoundChain P (toks.length+1) toks
  expectEof toks
  .ok (.select { stmt with withClause := withClause, compound := compound },toks)

def parseInsert (toks : Tokens) : Outcome (Statement × Tokens) := do
  let toks ← expectKeyword .insert toks
  let toks ← expectKeyword .into toks
  let (table,toks) ← parseIdent toks
  let (columns,toks) ← (do
    if atPunct .lParen toks then
      let (columns,toks) ← parenthesised (commaList parseIdent) toks
      .ok (some columns,toks)
    else .ok (none,toks) : Outcome (Option (List String) × Tokens))
  let toks ← expectKeyword .values toks
  let (values,toks) ← commaList (parenthesised (parseCommaExprs P)) toks
  expectEof toks
  .ok (.insert ⟨table,columns,values⟩,toks)

def parseAssignment (toks : Tokens) : Outcome ((String × Expr) × Tokens) := do
  let (column,toks) ← parseIdent toks
  match headOperator toks with
  | none => .error (.unexpectedToken "= in SET clause")
  | some .eq =>
      let (value,toks) ← parseExpr P toks.tail
      .ok ((column,value),toks)
  | some _ => .error (.unexpectedToken "=")

def parseUpdate (toks : Tokens) : Outcome (Statement × Tokens) := do
  let toks ← expectKeyword .update toks
  let (table,toks) ← parseIdent toks
  let toks ← expectKeyword .set' toks
  let (assignments,toks) ← commaList (parseAssignment P) toks
  let (whereClause,toks) ← parseOptional .where' (parseExpr P) toks
  expectEof toks
  .ok (.update ⟨table,assignments,whereClause⟩,toks)

def parseDelete (toks : Tokens) : Outcome (Statement × Tokens) := do
  let toks ← expectKeyword .delete toks
  let toks ← expectKeyword .from' toks
  let (table,toks) ← parseIdent toks
  let (whereClause,toks) ← parseOptional .where' (parseExpr P) toks
  expectEof toks
  .ok (.delete ⟨table,whereClause⟩,toks)

/- The rules behind a column; a `NOT` or `PRIMARY` alone is read and means nothing. -/
def columnRules : Nat → Bool × Bool × Bool → Tokens → Outcome ((Bool × Bool × Bool) × Tokens)
  | 0,_,_ => .error .depleted
  | fuel+1,(notNull,primaryKey,unique),toks =>
      if atKeyword .not toks && atKeyword .null toks.tail then
        columnRules fuel (true,primaryKey,unique) toks.tail.tail
      else
        let toks := dropKeyword .not toks
        if atKeyword .primary toks && atKeyword .key toks.tail then
          columnRules fuel (true,true,unique) toks.tail.tail
        else
          let toks := dropKeyword .primary toks
          if atKeyword .unique toks then columnRules fuel (notNull,primaryKey,true) toks.tail
          else .ok ((notNull,primaryKey,unique),toks)

def parseColumnDef (toks : Tokens) : Outcome (ColumnDef × Tokens) := do
  let (name,toks) ← parseIdent toks
  let (dataType,toks) ← parseSqlType toks
  let ((notNull,primaryKey,unique),toks) ← columnRules (toks.length+1) (false,false,false) toks
  .ok (⟨name,dataType,notNull,primaryKey,unique⟩,toks)

inductive TableEntry where
  | key (columns : List String)
  | column (definition : ColumnDef)

def TableEntry.keyColumns : TableEntry → List String
  | .key columns => columns
  | .column _ => []

def TableEntry.columnDef : TableEntry → Option ColumnDef
  | .key _ => none
  | .column definition => some definition

def parseTableEntry (toks : Tokens) : Outcome (TableEntry × Tokens) := do
  if atKeyword .primary toks then
    let toks ← expectKeyword .key toks.tail
    let (columns,toks) ← parenthesised (commaList parseIdent) toks
    .ok (.key columns,toks)
  else
    let (definition,toks) ← parseColumnDef toks
    .ok (.column definition,toks)

def parseIfNotExists (toks : Tokens) : Outcome (Bool × Tokens) := do
  if atKeyword .if' toks then
    let toks ← expectKeyword .not toks.tail
    let toks ← expectKeyword .exists' toks
    .ok (true,toks)
  else .ok (false,toks)

def parseCreateTable (toks : Tokens) : Outcome (Statement × Tokens) := do
  let (ifNotExists,toks) ← parseIfNotExists toks
  let (name,toks) ← parseIdent toks
  let (entries,toks) ← parenthesised (commaList parseTableEntry) toks
  expectEof toks
  .ok (.createTable ⟨name,ifNotExists,entries.filterMap TableEntry.columnDef,
    entries.flatMap TableEntry.keyColumns⟩,toks)

def parseCreateIndex (toks : Tokens) : Outcome (Statement × Tokens) := do
  let (name,toks) ← parseIdent toks
  let toks ← expectKeyword .on' toks
  let (table,toks) ← parseIdent toks
  let (columns,toks) ← parenthesised (commaList parseIdent) toks
  expectEof toks
  .ok (.createIndex ⟨name,table,columns⟩,toks)

def parseCreatePolicy (toks : Tokens) : Outcome (Statement × Tokens) := do
  let (name,toks) ← parseIdent toks
  let toks ← expectKeyword .on' toks
  let (table,toks) ← parseIdent toks
  let toks ← expectKeyword .using' toks
  let (usingExpr,toks) ← parenthesised (parseExpr P) toks
  expectEof toks
  .ok (.createPolicy ⟨name,table,usingExpr⟩,toks)

def parseCreate (toks : Tokens) : Outcome (Statement × Tokens) := do
  let toks ← expectKeyword .create toks
  if atKeyword .table toks then parseCreateTable toks.tail
  else if atKeyword .index toks then parseCreateIndex toks.tail
  else if atKeyword .policy toks then parseCreatePolicy P toks.tail
  else .error (.unexpectedToken "TABLE, INDEX, or POLICY after CREATE")

def parseDropTable (toks : Tokens) : Outcome (Statement × Tokens) := do
  let toks ← expectKeyword .drop toks
  let toks ← expectKeyword .table toks
  let (name,toks) ← parseIdent toks
  expectEof toks
  .ok (.dropTable name,toks)

def parseAlterTable (toks : Tokens) : Outcome (Statement × Tokens) := do
  let toks ← expectKeyword .alter toks
  let toks ← expectKeyword .table toks
  let (table,toks) ← parseIdent toks
  if atKeyword .enable toks then
    let toks ← expectKeyword .row toks.tail
    let toks ← expectKeyword .level toks
    let toks ← expectKeyword .security toks
    expectEof toks
    .ok (.enableRls table,toks)
  else if atKeyword .add toks then
    let (column,toks) ← parseColumnDef (dropKeyword .column toks.tail)
    expectEof toks
    .ok (.alterTable ⟨table,.addColumn column⟩,toks)
  else .error (.unexpectedToken "ENABLE ROW LEVEL SECURITY or ADD COLUMN after ALTER TABLE")

def parseAnalyze (toks : Tokens) : Outcome (Statement × Tokens) := do
  let toks ← expectKeyword .analyze toks
  let toks ← expectKeyword .table toks
  let (table,toks) ← parseIdent toks
  expectEof toks
  .ok (.analyzeTable table,toks)

def parseExecuteParams (toks : Tokens) : Outcome (List Literal × Tokens) := closedList parseLiteral toks

def parseExecute (toks : Tokens) : Outcome (Statement × Tokens) := do
  let toks ← expectKeyword .execute toks
  let (name,toks) ← parseIdent toks
  let (params,toks) ← if atPunct .lParen toks then parseExecuteParams toks.tail else .ok ([],toks)
  expectEof toks
  .ok (.execute name params,toks)

def parseRoleLiteral : Tokens → Outcome (String × Tokens)
  | ⟨.string value,_⟩ :: rest => .ok (value,rest)
  | ⟨.ident,text⟩ :: rest => .ok (text,rest)
  | ⟨.quotedIdent value,_⟩ :: rest => .ok (value,rest)
  | _ => .error (.unexpectedToken "role name")

def parseSet (toks : Tokens) : Outcome (Statement × Tokens) := do
  let toks ← expectKeyword .set' toks
  let toks ← expectKeyword .role toks
  let (role,toks) ← parseRoleLiteral toks
  expectEof toks
  .ok (.setRole role,toks)

/- `BEGIN`, `COMMIT` and `ROLLBACK` are one word each. -/
def parseTxn (word : Keyword) (stmt : Statement) (toks : Tokens) : Outcome (Statement × Tokens) := do
  let toks ← expectKeyword word toks
  expectEof toks
  .ok (stmt,toks)

def parseBegin : Tokens → Outcome (Statement × Tokens) := parseTxn .begin .beginTxn
def parseCommit : Tokens → Outcome (Statement × Tokens) := parseTxn .commit .commitTxn
def parseRollback : Tokens → Outcome (Statement × Tokens) := parseTxn .rollback .rollbackTxn

def parsePrepare (inner : Reader Statement) (toks : Tokens) : Outcome (Statement × Tokens) := do
  let toks ← expectKeyword .prepare toks
  let (name,toks) ← parseIdent toks
  let toks ← expectKeyword .as' toks
  let (stmt,toks) ← inner toks
  expectEof toks
  .ok (.prepare name stmt,toks)

def dispatchStatement : Nat → Tokens → Outcome (Statement × Tokens)
  | 0,_ => .error .depleted
  | fuel+1,toks =>
      match toks with
      | ⟨.keyword .select,_⟩ :: _ => parseSelect P toks
      | ⟨.keyword .with',_⟩ :: _ => parseSelect P toks
      | ⟨.keyword .insert,_⟩ :: _ => parseInsert P toks
      | ⟨.keyword .update,_⟩ :: _ => parseUpdate P toks
      | ⟨.keyword .delete,_⟩ :: _ => parseDelete P toks
      | ⟨.keyword .create,_⟩ :: _ => parseCreate P toks
      | ⟨.keyword .drop,_⟩ :: _ => parseDropTable toks
      | ⟨.keyword .alter,_⟩ :: _ => parseAlterTable toks
      | ⟨.keyword .analyze,_⟩ :: _ => parseAnalyze toks
      | ⟨.keyword .prepare,_⟩ :: _ => parsePrepare (dispatchStatement fuel) toks
      | ⟨.keyword .execute,_⟩ :: _ => parseExecute toks
      | ⟨.keyword .set',_⟩ :: _ => parseSet toks
      | ⟨.keyword .begin,_⟩ :: _ => parseBegin toks
      | ⟨.keyword .commit,_⟩ :: _ => parseCommit toks
      | ⟨.keyword .rollback,_⟩ :: _ => parseRollback toks
      | _ => .error (.unexpectedToken "SQL statement")

end

def lexeme (src : Bytes) (span : Span) : String :=
  (fromUtf8 ((src.drop span.start).take (span.stop-span.start))).getD ""

def sourceTokens (src : String) (tokens : List SpannedToken) : Tokens :=
  tokens.map fun token => ⟨token.kind,lexeme (utf8 src) token.span⟩

def parseTokens (toks : Tokens) : Outcome Statement := do
  let (stmt,_) ← dispatchStatement (parsers (toks.length+1)) (toks.length+1) toks
  .ok stmt

def parse [Unicode] (src : String) : Outcome Statement :=
  match tokenize src with
  | .error fault => .error (.lex fault)
  | .ok tokens => parseTokens (sourceTokens src tokens)

end NoeDB.Parser
