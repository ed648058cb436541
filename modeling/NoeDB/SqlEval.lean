import NoeDB.Platform
import NoeDB.SqlValue

/-! Evaluation of expressions on one row (noedb-planner: eval.rs). -/
namespace NoeDB.SqlEval
open ByteString Text Decimals SqlAst SqlValue Platform

def literalToValue : Literal → Value
  | .null => .null
  | .integer n => .integer n
  | .float f => .float f
  | .string s => .bytes (utf8 s)
  | .boolean b => .bool b

def isSqlNull : Value → Bool
  | .null => true
  | .bytes b => b = []
  | _ => false

def findColumn (name : String) (row : Row) : Option Value := (row.find? fun field => field.1 = name).map Prod.snd

def endsIn (column : String) (field : String × Value) : Bool :=
  match rsplitOnce '.' field.1 with
  | some (_,bare) => bare = column
  | none => false

def unknownColumn {α : Type} (name : String) : Eval α := .error (.error (.unknownColumn name))
def unsupported {α : Type} : Eval α := .error (.error .unsupportedExpr)

def evalColumn (col : ColumnRef) (row : Row) : Eval Value :=
  match col with
  | .named (some t) column =>
      let qual := t ++ "." ++ column
      match findColumn qual row with
      | some v => .ok v
      | none =>
          match findColumn column row with
          | some v => .ok v
          | none => unknownColumn qual
  | .named none column =>
      match findColumn column row with
      | some v => .ok v
      | none =>
          match row.filter (endsIn column) with
          | [(_,v)] => .ok v
          | _ => unknownColumn column
  | .star => unsupported
  | .qualifiedStar _ => unsupported

def coerceNumeric : Value → Option Float
  | .integer n => some (ofInt64 n)
  | .float f => some f
  | .bool b => some (ofBool b)
  | .bytes b => parseBytesAsF64 b
  | .timestamp ts => some (ofInt64 ts)
  | _ => none

def applyCmp {α : Type} [LT α] [LE α] [DecidableLT α] [DecidableLE α] (a b : α) : BinaryOp → Bool
  | .lt => a < b
  | .gt => b < a
  | .le => a ≤ b
  | .ge => b ≤ a
  | _ => false

def cmpValues (l r : Value) (op : BinaryOp) : Eval Bool :=
  if l = .null ∨ r = .null then .ok false
  else match coerceNumeric l,coerceNumeric r with
    | some a,some b => .ok (applyCmp a b op)
    | _,_ =>
        match l,r with
        | .bytes a,.bytes b => .ok (applyCmp a b op)
        | .date a,.date b => .ok (applyCmp a b op)
        | .timestamp a,.timestamp b => .ok (applyCmp a.toInt b.toInt op)
        | _,_ => typeErr "incompatible types in comparison"

def arithmetic (op : BinaryOp) (a b : Float) : Eval Value :=
  match op with
  | .plus => .ok (.float (a+b))
  | .minus => .ok (.float (a-b))
  | .div => if b == Float.ofNat 0 then typeErr "division by zero" else .ok (.float (a/b))
  | .mul => .ok (.float (a*b))
  | .mod => if b == Float.ofNat 0 then typeErr "modulo by zero" else .ok (.float (remainder a b))
  | _ => unsupported

def evalArithmetic (op : BinaryOp) (l r : Value) : Eval Value :=
  if l = .null ∨ r = .null then .ok .null
  else match coerceNumeric l with
    | none => typeErr ("arithmetic on " ++ l.debugText)
    | some a =>
        match coerceNumeric r with
        | none => typeErr ("arithmetic on " ++ r.debugText)
        | some b => arithmetic op a b

/- The first row of the table: the empty text against each beginning of the pattern. -/
def likeStart : Bool → List Char → List Bool
  | left,[] => [left]
  | left,p :: pattern => left :: likeStart (p = '%' && left) pattern

/- The next row, for one more character of the text; `left` is its next entry. -/
def likeNext (t : Char) : Bool → List Bool → List Char → List Bool
  | left,diagonal :: above :: row,p :: pattern =>
      left :: likeNext t (if p = '%' then left || above else (p = '_' || t = p) && diagonal) (above :: row) pattern
  | left,_,_ => [left]

def sqlLike (text pattern : String) : Bool :=
  ((text.toList.foldl (fun row t => likeNext t false row pattern.toList)
    (likeStart true pattern.toList)).getLast?).getD false

def likeMatch : Value → Value → Bool
  | .bytes text,.bytes pattern => sqlLike (fromUtf8Lossy text) (fromUtf8Lossy pattern)
  | _,_ => false

def decodeNdv1 (b : Bytes) : Eval (List Float32) :=
  let payload := b.drop 4
  if payload.length%4 ≠ 0 then typeErr "invalid VECTOR payload"
  else .ok (floatsOf (payload.length/4) payload)

def parseVectorLiteralFlexible (b : Bytes) : Eval (List Float32) :=
  match fromUtf8 b with
  | none => typeErr "invalid UTF-8 for VECTOR literal"
  | some s => parseFloats (fun part => "invalid float `" ++ part ++ "` in VECTOR literal") (vectorParts s)

def vectorAsF32s : Value → Eval (List Float32)
  | .vector v => .ok v
  | .bytes b => if vectorMagic.isPrefixOf b then decodeNdv1 b else parseVectorLiteralFlexible b
  | .null => typeErr "VECTOR distance with NULL"
  | other => typeErr ("expected VECTOR value, got " ++ other.debugText)

def squares (a b : List Float32) : List Float :=
  (a.zip b).map fun (x,y) =>
    let d := widen x-widen y
    d*d

def vectorL2Distance (left right : Value) : Eval Float := do
  let a ← vectorAsF32s left
  let b ← vectorAsF32s right
  if a.length ≠ b.length then
    typeErr ("VECTOR dimension mismatch: " ++ toString a.length ++ " vs " ++ toString b.length)
  else .ok (Float.sqrt ((squares a b).foldl (· + ·) (Float.ofNat 0).neg))

/- `AND`; the right side is looked at only where the left one does not decide. -/
def andValues (l : Value) (right : Eval Value) : Eval Value :=
  match l with
  | .bool false => .ok (.bool false)
  | .null => do
      let r ← right
      .ok (if r = .bool false then .bool false else .null)
  | .bool true => right
  | other => typeErr ("AND applied to " ++ other.debugText)

def orValues (l : Value) (right : Eval Value) : Eval Value :=
  match l with
  | .bool true => .ok (.bool true)
  | .null => do
      let r ← right
      .ok (if r = .bool true then .bool true else .null)
  | .bool false => right
  | other => typeErr ("OR applied to " ++ other.debugText)

def eqValue (negated : Bool) (l r : Value) : Value :=
  match l.sqlEq r with
  | some b => .bool (if negated then !b else b)
  | none => .null

def strictBinary (op : BinaryOp) (l r : Value) : Eval Value :=
  match op with
  | .eq => .ok (eqValue false l r)
  | .ne => .ok (eqValue true l r)
  | .lt | .gt | .le | .ge => (cmpValues l r op).map .bool
  | .like => .ok (.bool (likeMatch l r))
  | .distance => (vectorL2Distance l r).map .float
  | _ => evalArithmetic op l r

def evalBinary (op : BinaryOp) (left right : Eval Value) : Eval Value :=
  match op with
  | .and => left.bind fun l => andValues l right
  | .or => left.bind fun l => orValues l right
  | _ => left.bind fun l => right.bind fun r => strictBinary op l r

/- Integers wrap, as they do where overflow is not checked. -/
def evalUnary (op : UnaryOp) (v : Value) : Eval Value :=
  match op,v with
  | .not,.bool b => .ok (.bool !b)
  | .not,.null => .ok .null
  | .not,other => typeErr ("NOT applied to " ++ other.debugText)
  | .minus,.integer n => .ok (.integer (-n))
  | .minus,.float f => .ok (.float f.neg)
  | .minus,.null => .ok .null
  | .minus,other => typeErr ("unary minus on " ++ other.debugText)

def stringUnary (f : String → String) : Value → Eval Value
  | .null => .ok .null
  | .bytes b => .ok (.bytes (utf8 (f (fromUtf8Lossy b))))
  | _ => typeErr "expected text argument"

def textLength : Value → Eval Value
  | .null => .ok .null
  | .bytes b => .ok (.integer (Int64.ofNat (fromUtf8Lossy b).length))
  | _ => typeErr "LENGTH expects text"

def absolute : Value → Eval Value
  | .null => .ok .null
  | .integer n => .ok (.integer (if n < 0 then -n else n))
  | .float f => .ok (.float f.abs)
  | other => typeErr ("ABS expects numeric, got " ++ other.debugText)

def roundValue : Value → Eval Value
  | .null => .ok .null
  | .integer n => .ok (.integer n)
  | .float f => .ok (.float (rounded f))
  | .bytes b =>
      match parseBytesAsF64 b with
      | none => typeErr "ROUND expects numeric"
      | some n => .ok (.float (rounded n))
  | other => typeErr ("ROUND expects numeric, got " ++ other.debugText)

def betweenValues (v lo hi : Value) (negated : Bool) : Eval Value :=
  if v = .null ∨ lo = .null ∨ hi = .null then .ok (.bool false)
  else do
    let ge ← cmpValues v lo .ge
    let le ← cmpValues v hi .le
    .ok (.bool (if negated then !(ge && le) else ge && le))

section
variable [Runtime]

/- `first` is the first argument and `coalesced` the first argument that is not null. -/
def evalScalarFunction (name : String) (first coalesced : Eval Value) : Eval Value :=
  let upper := asciiUpper name
  if upper = "UPPER" then first.bind (stringUnary Runtime.upper)
  else if upper = "LOWER" then first.bind (stringUnary Runtime.lower)
  else if upper = "LENGTH" then first.bind textLength
  else if upper = "TRIM" then first.bind (stringUnary trim)
  else if upper = "COALESCE" then coalesced
  else if upper = "ABS" then first.bind absolute
  else if upper = "ROUND" then first.bind roundValue
  else unsupported

mutual

def evalExpr : Expr → Row → Eval Value
  | .literal lit,_ => .ok (literalToValue lit)
  | .column col,row => evalColumn col row
  | .unary op expr,row => (evalExpr expr row).bind (evalUnary op)
  | .binary op left right,row => evalBinary op (evalExpr left row) (evalExpr right row)
  | .isNull expr negated,row =>
      (evalExpr expr row).bind fun v => .ok (.bool (if negated then !isSqlNull v else isSqlNull v))
  | .inList expr values negated,row =>
      (evalExpr expr row).bind fun v =>
        (evalMember v values row).bind fun found => .ok (.bool (if negated then !found else found))
  | .cast expr dataType,row => (evalExpr expr row).bind fun v => castValue v dataType
  | .between expr low high negated,row =>
      (evalExpr expr row).bind fun v => (evalExpr low row).bind fun lo => (evalExpr high row).bind fun hi =>
        betweenValues v lo hi negated
  | .function name args window,row =>
      if window.isSome then unsupported
      else evalScalarFunction name (evalFirst args row) (evalCoalesce args row)
  | .paren inner,row => evalExpr inner row
  | .inSubquery _ _ _,_ => unsupported
  | .existsQuery _ _,_ => unsupported
  | .scalarSubquery _,_ => unsupported
  | .parameter _,_ => unsupported
  | .currentUser,_ => unsupported

def evalMember (v : Value) : List Expr → Row → Eval Bool
  | [],_ => .ok false
  | expr :: rest,row =>
      (evalExpr expr row).bind fun val => if v.sqlEq val = some true then .ok true else evalMember v rest row

def evalFirst : List Expr → Row → Eval Value
  | [],_ => .error .panicked
  | expr :: _,row => evalExpr expr row

def evalCoalesce : List Expr → Row → Eval Value
  | [],_ => .ok .null
  | expr :: rest,row => (evalExpr expr row).bind fun v => if v = .null then evalCoalesce rest row else .ok v

end

def evalPredicate (expr : Expr) (row : Row) : Eval Bool :=
  (evalExpr expr row).bind fun
    | .bool b => .ok b
    | .null => .ok false
    | other => typeErr ("expected boolean predicate, got " ++ other.debugText)

end
end NoeDB.SqlEval
