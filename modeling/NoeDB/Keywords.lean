import NoeDB.Text

/-! Reserved words and their lookup (token.rs, keywords.rs, keyword_buckets.rs). -/
namespace NoeDB.Keywords
open ByteString Text

inductive Keyword where
  | add | all | alter | analyze | and | any | as' | asc | authorization | between | begin | by' | case | cast
  | check | collate | column | commit | constraint | create | cross | current | currentDate | currentTime
  | currentTimestamp | currentUser | default | delete | desc | distinct | drop | else' | enable | end'
  | escape | except | execute | exists' | false | fetch | following | for' | foreign | from' | full | grant
  | group | having | if' | in' | index | inner | insert | intersect | into | is | join | key | left | level
  | like | limit | natural | not | null | nullif | of | offset | on' | or | order | over' | outer | partition
  | policy | preceding | prepare | primary | range | recursive | references | right | role | rows | rollback
  | row | select | security | set' | some | table | then' | to' | true | union | unbounded | unique | update
  | user | using' | values | view | when | where' | with'
  deriving DecidableEq, Repr

def tableForLen : Nat → List (String × Keyword)
  | 2 =>
    [("AS",.as'),("BY",.by'),("IF",.if'),("IN",.in'),("IS",.is),("OF",.of),("ON",.on'),("OR",.or),("TO",.to')]
  | 3 =>
    [("ADD",.add),("ALL",.all),("AND",.and),("ANY",.any),("ASC",.asc),("END",.end'),("FOR",.for'),("KEY",.key),
     ("NOT",.not),("ROW",.row),("SET",.set')]
  | 4 =>
    [("CASE",.case),("CAST",.cast),("DESC",.desc),("DROP",.drop),("ELSE",.else'),("FROM",.from'),("FULL",.full),
     ("INTO",.into),("JOIN",.join),("LEFT",.left),("LIKE",.like),("NULL",.null),("OVER",.over'),("ROLE",.role),
     ("ROWS",.rows),("SOME",.some),("THEN",.then'),("TRUE",.true),("USER",.user),("VIEW",.view),("WHEN",.when),
     ("WITH",.with')]
  | 5 =>
    [("ALTER",.alter),("BEGIN",.begin),("CHECK",.check),("CROSS",.cross),("FALSE",.false),("FETCH",.fetch),
     ("GRANT",.grant),("GROUP",.group),("INDEX",.index),("INNER",.inner),("LEVEL",.level),("LIMIT",.limit),
     ("ORDER",.order),("OUTER",.outer),("RANGE",.range),("RIGHT",.right),("TABLE",.table),("UNION",.union),
     ("USING",.using'),("WHERE",.where')]
  | 6 =>
    [("COLUMN",.column),("COMMIT",.commit),("CREATE",.create),("DELETE",.delete),("ENABLE",.enable),
     ("ESCAPE",.escape),("EXCEPT",.except),("EXISTS",.exists'),("HAVING",.having),("INSERT",.insert),
     ("NULLIF",.nullif),("OFFSET",.offset),("POLICY",.policy),("SELECT",.select),("UNIQUE",.unique),
     ("UPDATE",.update),("VALUES",.values)]
  | 7 =>
    [("ANALYZE",.analyze),("BETWEEN",.between),("COLLATE",.collate),("CURRENT",.current),("DEFAULT",.default),
     ("EXECUTE",.execute),("FOREIGN",.foreign),("NATURAL",.natural),("PREPARE",.prepare),("PRIMARY",.primary)]
  | 8 =>
    [("DISTINCT",.distinct),("ROLLBACK",.rollback),("SECURITY",.security)]
  | 9 =>
    [("FOLLOWING",.following),("INTERSECT",.intersect),("PARTITION",.partition),("PRECEDING",.preceding),
     ("RECURSIVE",.recursive),("UNBOUNDED",.unbounded)]
  | 10 =>
    [("CONSTRAINT",.constraint),("REFERENCES",.references)]
  | 12 =>
    [("CURRENT_DATE",.currentDate),("CURRENT_TIME",.currentTime),("CURRENT_USER",.currentUser)]
  | 13 =>
    [("AUTHORIZATION",.authorization)]
  | 17 =>
    [("CURRENT_TIMESTAMP",.currentTimestamp)]
  | _ => []

def isAsciiUppercase (b : UInt8) : Bool := 65 ≤ b ∧ b ≤ 90
def isUpperKeywordBody (bytes : Bytes) : Bool := bytes.all fun b => isAsciiUppercase b || b == 95

def upperByte (b : UInt8) : UInt8 := if 97 ≤ b ∧ b ≤ 122 then b-32 else b

def compareBytes : Bytes → Bytes → Ordering
  | [],[] => .eq
  | [],_ :: _ => .lt
  | _ :: _,[] => .gt
  | a :: left,b :: right => if a < b then .lt else if b < a then .gt else compareBytes left right

def cmpIgnoreAsciiCase (left right : Bytes) : Ordering := compareBytes (left.map upperByte) (right.map upperByte)

def searchTable (compare : Bytes → Ordering) (table : List (String × Keyword)) : Nat → Nat → Nat → Option Keyword
  | 0,_,_ => none
  | fuel+1,lo,hi =>
      if hi ≤ lo then none
      else
        let mid := lo+(hi-lo)/2
        match table[mid]? with
        | none => none
        | some (name,keyword) =>
            match compare (utf8 name) with
            | .lt => searchTable compare table fuel lo mid
            | .eq => some keyword
            | .gt => searchTable compare table fuel (mid+1) hi

/- Short tables are walked from the front. -/
def lookupInTable (compare : Bytes → Ordering) (table : List (String × Keyword)) : Option Keyword :=
  if table.length ≤ 8 then (table.find? fun entry => compare (utf8 entry.1) == .eq).map Prod.snd
  else searchTable compare table (table.length+1) 0 table.length

def lookup (word : Bytes) : Option Keyword :=
  let table := tableForLen word.length
  if isUpperKeywordBody word then lookupInTable (compareBytes word) table
  else lookupInTable (cmpIgnoreAsciiCase word) table

end NoeDB.Keywords
