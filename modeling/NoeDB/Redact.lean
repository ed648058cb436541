import Mathlib.Data.List.Sort
import NoeDB.Text

/-! Redaction of secrets in SQL text (redact.rs), over the bytes of the text. Keywords and
quotes are of ASCII, so every offset computed here is at the start of a character. -/
namespace NoeDB.Redact
open ByteString Text

def sensitiveKeywords : List Bytes :=
  [utf8 "password",utf8 "identified by",utf8 "secret",utf8 "token",utf8 "api_key",utf8 "apikey",utf8 "private_key"]

def maskText : Bytes := utf8 "'***'"

def lowerByte (b : UInt8) : UInt8 := if 65 ≤ b ∧ b ≤ 90 then b+32 else b

def isBlank (b : UInt8) : Bool := (9 ≤ b ∧ b ≤ 13) ∨ b = 32 ∨ b = 133 ∨ b = 160

def find (needle : Bytes) : Bytes → Option Nat
  | [] => none
  | b :: rest => if needle <+: b :: rest then some 0 else (find needle rest).map (·+1)

def skipBlanks (bytes : Bytes) (i : Nat) : Nat := i+((bytes.drop i).takeWhile isBlank).length

/- Where the quote of a literal would stand after a keyword that ends at `i`. -/
def quotePlace (bytes : Bytes) (i : Nat) : Nat :=
  let blank := skipBlanks bytes i
  if bytes[blank]? = some 61 then skipBlanks bytes (blank+1) else blank

def nextLiteralSpan (bytes : Bytes) (i : Nat) : Option (Nat × Nat) :=
  let start := quotePlace bytes i
  if bytes[start]? = some 39 then (find [39] (bytes.drop (start+1))).map fun n => (start,start+1+n+1)
  else none

/- The inner loop of `redact_sql`; every turn goes on behind the keyword it found. -/
def keywordSpans (keyword bytes : Bytes) : Nat → Nat → List (Nat × Nat)
  | 0,_ => []
  | fuel+1,searchFrom =>
      match find keyword ((bytes.map lowerByte).drop searchFrom) with
      | none => []
      | some n =>
          let keywordEnd := searchFrom+n+keyword.length
          match nextLiteralSpan bytes keywordEnd with
          | some span => span :: keywordSpans keyword bytes fuel span.2
          | none => keywordSpans keyword bytes fuel keywordEnd

def spanLe (a b : Nat × Nat) : Prop := a.1 < b.1 ∨ (a.1 = b.1 ∧ a.2 ≤ b.2)

instance : DecidableRel spanLe := fun a b => inferInstanceAs (Decidable (a.1 < b.1 ∨ (a.1 = b.1 ∧ a.2 ≤ b.2)))

def dedup : List (Nat × Nat) → List (Nat × Nat)
  | a :: b :: rest => if a = b then dedup (b :: rest) else a :: dedup (b :: rest)
  | short => short

def applySpans (bytes : Bytes) : List (Nat × Nat) → Nat → Bytes
  | [],cursor => bytes.drop cursor
  | (start,stop) :: rest,cursor =>
      if start < cursor then applySpans bytes rest cursor
      else (bytes.take start).drop cursor ++ maskText ++ applySpans bytes rest stop

def redactBytes (bytes : Bytes) : Bytes :=
  let spans := sensitiveKeywords.flatMap fun keyword => keywordSpans keyword bytes (bytes.length+1) 0
  if spans = [] then bytes
  else applySpans bytes (dedup (spans.insertionSort spanLe)) 0

def redactSql (sql : String) : Bytes := redactBytes (utf8 sql)

example : redactSql "SET api_key = 'abc'; X token 'd'" = utf8 "SET api_key = '***'; X token '***'" := by decide +kernel

end NoeDB.Redact
