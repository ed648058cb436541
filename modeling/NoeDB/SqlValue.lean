import NoeDB.Decimals
import NoeDB.SqlAst
import NoeDB.StorageTypes

/-! Runtime values (noedb-planner: value.rs), the errors of planner and executor (lib.rs)
and `CAST` (cast.rs). -/
namespace NoeDB.SqlValue
open ByteString Text Decimals SqlAst StorageTypes

inductive PlanError where
  | unsupportedStatement
  | unknownTable (name : String)
  | missingSchema
  deriving DecidableEq, Repr

inductive ExecError where
  | unsupportedExpr
  | unsupportedOperator
  | unknownColumn (name : String)
  | typeMismatch (message : String)
  | plan (cause : PlanError)
  | storage (cause : StorageError)
  deriving DecidableEq, Repr

inductive ExecFault where
  | error (cause : ExecError)
  | panicked
  | endless
  deriving DecidableEq, Repr

abbrev Eval := Except ExecFault

def typeErr {α : Type} (message : String) : Eval α := .error (.error (.typeMismatch message))

inductive Value where
  | null
  | integer (n : Int64)
  | float (f : Float)
  | bytes (b : Bytes)
  | bool (b : Bool)
  | date (b : Bytes)
  | timestamp (seconds : Int64)
  | vector (v : List Float32)
  deriving DecidableEq

abbrev Row := List (String × Value)

def intText (n : Int64) : String := toString n.toInt
def boolText (b : Bool) : String := if b then "true" else "false"
def listText (items : List String) : String := "[" ++ join ", " items ++ "]"
def bytesText (b : Bytes) : String := listText (b.map fun byte => toString byte.toNat)

def vectorMagic : Bytes := [78,68,86,49]

/- Both the planner's index keys and the engine's cells hold vectors this way. -/
def vectorToBytes (v : List Float32) : Bytes := vectorMagic ++ v.flatMap fun f => leBytes 4 f.toBits.toNat

def floatsOf : Nat → Bytes → List Float32
  | 0,_ => []
  | n+1,b => Float32.ofBits (UInt32.ofNat (ofLeBytes (b.take 4))) :: floatsOf n (b.drop 4)

namespace Value

def debugText : Value → String
  | null => "Null"
  | integer n => "Integer(" ++ intText n ++ ")"
  | float f => "Float(" ++ debug double f ++ ")"
  | bytes b => "Bytes(" ++ bytesText b ++ ")"
  | bool b => "Bool(" ++ boolText b ++ ")"
  | date b => "Date(" ++ bytesText b ++ ")"
  | timestamp ts => "Timestamp(" ++ intText ts ++ ")"
  | vector v => "Vector(" ++ listText (v.map (debug single)) ++ ")"

def asBytes : Value → Bytes
  | null => []
  | integer n => beBytes 8 n.toUInt64.toNat
  | float f => beBytes 8 f.toBits.toNat
  | bool b => [if b then 1 else 0]
  | bytes b => b
  | date b => b
  | timestamp ts => beBytes 8 ts.toUInt64.toNat
  | vector v => vectorToBytes v

end Value

def ofInt64 (n : Int64) : Float := Float.ofInt n.toInt
def ofBool (b : Bool) : Float := if b then Float.ofNat 1 else Float.ofNat 0

def parseBytesAsF64 (b : Bytes) : Option Float := (fromUtf8 b).bind fun text => parse double (trim text)

def vectorEq : List Float32 → List Float32 → Bool
  | [],[] => true
  | a :: as,b :: bs => a == b && vectorEq as bs
  | _,_ => false

/- The arms for a boolean against one byte come before those for any bytes. -/
def Value.sqlEq : Value → Value → Option Bool
  | null,null => some true
  | null,_ => none
  | _,null => none
  | integer a,integer b => some (a == b)
  | float a,float b => some (a == b)
  | bool a,bool b => some (a == b)
  | bool a,bytes [b] => some (a == (b != 0))
  | bytes [b],bool a => some (a == (b != 0))
  | bytes a,bytes b => some (a == b)
  | date a,date b => some (a == b)
  | timestamp a,timestamp b => some (a == b)
  | vector a,vector b => some (vectorEq a b)
  | integer a,float b => some (ofInt64 a == b)
  | float a,integer b => some (a == ofInt64 b)
  | bytes a,integer b => (parseBytesAsF64 a).map fun x => x == ofInt64 b
  | integer a,bytes b => (parseBytesAsF64 b).map fun x => ofInt64 a == x
  | bytes a,float b => (parseBytesAsF64 a).map fun x => x == b
  | float a,bytes b => (parseBytesAsF64 b).map fun x => a == x
  | _,_ => some false

section

def parseInt64 (text : String) : Option Int64 :=
  (parseInt text).bind fun n =>
    if Int64.minValue.toInt ≤ n ∧ n ≤ Int64.maxValue.toInt then some (Int64.ofInt n) else none

def parseIntBytes (b : Bytes) : Eval Int64 :=
  match fromUtf8 b with
  | none => typeErr "invalid UTF-8 for integer CAST"
  | some s =>
      match parseInt64 (trim s) with
      | none => typeErr "invalid integer literal for CAST"
      | some n => .ok n

def parseFloatBytes (b : Bytes) : Eval Float :=
  match fromUtf8 b with
  | none => typeErr "invalid UTF-8 for float CAST"
  | some s =>
      match parse double (trim s) with
      | none => typeErr "invalid float literal for CAST"
      | some f => .ok f

def parseBoolBytes (b : Bytes) : Eval Bool :=
  match fromUtf8 b with
  | none => typeErr "invalid UTF-8 for boolean CAST"
  | some s =>
      let word := asciiLower (trim s)
      if word ∈ ["true","t","1","yes"] then .ok true
      else if word ∈ ["false","f","0","no",""] then .ok false
      else typeErr "invalid boolean literal for CAST"

def castToInt : Value → Eval Value
  | .integer n => .ok (.integer n)
  | .float f => .ok (.integer (toInt64 f))
  | .bool b => .ok (.integer (if b then 1 else 0))
  | .bytes b => (parseIntBytes b).map .integer
  | .date b => (parseIntBytes b).map .integer
  | .timestamp ts => .ok (.integer ts)
  | .null => .error .panicked
  | .vector _ => typeErr "cannot CAST VECTOR to INT"

def castToFloat : Value → Eval Value
  | .integer n => .ok (.float (ofInt64 n))
  | .float f => .ok (.float f)
  | .bool b => .ok (.float (ofBool b))
  | .bytes b => (parseFloatBytes b).map .float
  | .date b => (parseFloatBytes b).map .float
  | .timestamp ts => .ok (.float (ofInt64 ts))
  | .null => .error .panicked
  | .vector _ => typeErr "cannot CAST VECTOR to FLOAT"

def castToBool : Value → Eval Value
  | .bool b => .ok (.bool b)
  | .integer n => .ok (.bool (n != 0))
  | .float f => .ok (.bool (f != Float.ofNat 0))
  | .bytes b => (parseBoolBytes b).map .bool
  | .date b => .ok (.bool (b ≠ []))
  | .timestamp ts => .ok (.bool (ts != 0))
  | .null => .error .panicked
  | .vector _ => typeErr "cannot CAST VECTOR to BOOLEAN"

def normalizeDateBytes (b : Bytes) : Eval Bytes :=
  match fromUtf8 b with
  | none => typeErr "invalid UTF-8 for DATE"
  | some s =>
      let date := utf8 (trim s)
      if date.length = 10 ∧ date.getD 4 0 = 45 ∧ date.getD 7 0 = 45 then .ok date
      else typeErr "DATE must be YYYY-MM-DD"

def isLeap (y : Nat) : Bool := (y%4 = 0 ∧ y%100 ≠ 0) ∨ y%400 = 0

/- The walk over the years; no year is longer than the fuel it takes. -/
def yearOf : Nat → Nat → Nat → Nat × Nat
  | 0,y,days => (y,days)
  | fuel+1,y,days =>
      let diy := if isLeap y then 366 else 365
      if days < diy then (y,days) else yearOf fuel (y+1) (days-diy)

def monthOf : List Nat → Nat → Nat → Nat × Nat
  | [],_,_ => (12,31)
  | md :: rest,month,days => if days < md then (month,days+1) else monthOf rest (month+1) (days-md)

def epochDayToYmd (days : Nat) : Nat × Nat × Nat :=
  let (y,days) := yearOf (days/365+1) 1970 days
  let monthDays := if isLeap y then [31,29,31,30,31,30,31,31,30,31,30,31]
    else [31,28,31,30,31,30,31,31,30,31,30,31]
  (y,monthOf monthDays 1 days)

def timestampToDateBytes (ts : Int64) : Bytes :=
  let secs := (max ts.toInt 0).toNat
  let (y,m,d) := epochDayToYmd (secs/86400)
  utf8 (padLeft 4 (toString y) ++ "-" ++ padLeft 2 (toString m) ++ "-" ++ padLeft 2 (toString d))

def castToDate : Value → Eval Value
  | .date b => (normalizeDateBytes b).map .date
  | .bytes b => (normalizeDateBytes b).map .date
  | .timestamp ts => .ok (.date (timestampToDateBytes ts))
  | .integer n => .ok (.date (timestampToDateBytes n))
  | .float f => .ok (.date (timestampToDateBytes (toInt64 f)))
  | .bool b => typeErr ("cannot CAST boolean " ++ boolText b ++ " to DATE")
  | .null => .error .panicked
  | .vector _ => typeErr "cannot CAST VECTOR to DATE"

def parseTimestampBytes (b : Bytes) : Eval Int64 :=
  match fromUtf8 b with
  | none => typeErr "invalid UTF-8 for TIMESTAMP"
  | some s =>
      let word := trim s
      if word.toList.all fun c => isDigit c || c == '-' then
        if (utf8 word).length = 10 then .ok 0
        else match parseInt64 word with
          | none => typeErr "invalid TIMESTAMP literal"
          | some n => .ok n
      else typeErr "unsupported TIMESTAMP format"

def castToTimestamp : Value → Eval Value
  | .timestamp ts => .ok (.timestamp ts)
  | .integer n => .ok (.timestamp n)
  | .float f => .ok (.timestamp (toInt64 f))
  | .bytes b => (parseTimestampBytes b).map .timestamp
  | .date b => (parseTimestampBytes b).map .timestamp
  | .bool b => typeErr ("cannot CAST boolean " ++ boolText b ++ " to TIMESTAMP")
  | .null => .error .panicked
  | .vector _ => typeErr "cannot CAST VECTOR to TIMESTAMP"

def parseFloats (refuse : String → String) : List String → Eval (List Float32)
  | [] => .ok []
  | part :: rest =>
      match parse single part with
      | none => typeErr (refuse part)
      | some f => (parseFloats refuse rest).map (f :: ·)

def vectorParts (text : String) : List String :=
  ((split ',' (trimEnd ']' (trimStart '[' (trim text)))).map trim).filter fun part => part ≠ ""

def parseVectorLiteral (b : Bytes) (dim : Nat) : Eval (List Float32) :=
  match fromUtf8 b with
  | none => typeErr "invalid UTF-8 for VECTOR"
  | some s => do
      let floats ← parseFloats (fun part => "invalid float `" ++ part ++ "` in VECTOR") (vectorParts s)
      if floats.length ≠ dim then
        typeErr ("VECTOR(" ++ toString dim ++ ") literal has " ++ toString floats.length ++ " elements")
      else .ok floats

def castToVector (val : Value) (dim : Nat) : Eval Value := do
  let floats ← match val with
    | .vector v => .ok v
    | .bytes b => parseVectorLiteral b dim
    | other => typeErr ("cannot CAST " ++ other.debugText ++ " to VECTOR(" ++ toString dim ++ ")")
  if floats.length ≠ dim then
    typeErr ("VECTOR(" ++ toString dim ++ ") has " ++ toString floats.length ++ " elements")
  else .ok (.vector floats)

def valueToString : Value → String
  | .null => "NULL"
  | .integer n => intText n
  | .float f => print double f
  | .bool b => boolText b
  | .bytes b => fromUtf8Lossy b
  | .date b => fromUtf8Lossy b
  | .timestamp ts => intText ts
  | .vector v => "[" ++ join "," (v.map (print single)) ++ "]"

def castToText (val : Value) : Eval Value := .ok (.bytes (utf8 (valueToString val)))

def castValue (val : Value) (ty : SqlType) : Eval Value :=
  if val = .null then .ok .null
  else match ty with
    | .int => castToInt val
    | .float => castToFloat val
    | .boolean => castToBool val
    | .varchar _ => castToText val
    | .text => castToText val
    | .date => castToDate val
    | .timestamp => castToTimestamp val
    | .vector dim => castToVector val dim
    | .named name =>
        let upper := asciiUpper name
        if upper = "TEXT" then castToText val
        else if upper ∈ ["INT","INTEGER","BIGINT"] then castToInt val
        else if upper ∈ ["FLOAT","REAL","DOUBLE"] then castToFloat val
        else if upper ∈ ["BOOLEAN","BOOL"] then castToBool val
        else if upper = "DATE" then castToDate val
        else if upper ∈ ["TIMESTAMP","TIMESTAMPTZ"] then castToTimestamp val
        else if upper = "VECTOR" then typeErr "VECTOR requires VECTOR(n) dimension"
        else typeErr ("unsupported CAST target type " ++ name)

end
end NoeDB.SqlValue
