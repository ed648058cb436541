import NoeDB.Decimals
import NoeDB.Keywords

/-! The lexer (cursor.rs, lexer.rs, token.rs, span.rs): a cursor over the bytes of the
source that takes some steps by bytes and some by characters. Where the source is cut
inside a character the code panics. -/
namespace NoeDB.Lexer
open ByteString Text Decimals Keywords

/- The properties of characters outside ASCII that the standard library looks up. -/
class Unicode where
  alphabetic : Char → Bool
  numeric : Char → Bool

inductive Operator where
  | eq | ne | lt | gt | le | ge | minus | plus | div | mod | distance
  deriving DecidableEq, Repr

inductive Punctuation where
  | lParen | rParen | comma | semicolon | dot | star
  deriving DecidableEq, Repr

inductive Token where
  | keyword (word : Keyword)
  | ident
  | quotedIdent (value : String)
  | integer (value : Int64)
  | float (value : Float)
  | string (value : String)
  | op (operator : Operator)
  | punct (mark : Punctuation)
  | eof
  | parameter (index : Nat)
  deriving DecidableEq

structure Span where
  start : Nat
  stop : Nat
  deriving DecidableEq, Repr

structure SpannedToken where
  kind : Token
  span : Span
  deriving DecidableEq

inductive LexErrorKind where
  | unexpectedChar (c : Char)
  | integerOutOfRange (literal : String)
  | invalidFloat (literal : String)
  | unterminatedString
  | unterminatedQuotedIdent
  | unterminatedBlockComment
  deriving DecidableEq, Repr

inductive LexFault where
  | error (kind : LexErrorKind) (span : Span)
  | panicked
  deriving DecidableEq, Repr

structure Cursor where
  rest : Bytes
  pos : Nat
  deriving DecidableEq, Repr

abbrev Lexed (α : Type) := Except LexFault α

/- Offsets are cut to 32 bits. -/
def mkSpan (start stop : Cursor) : Span := ⟨start.pos%2^32,stop.pos%2^32⟩

def fail {α : Type} (kind : LexErrorKind) (start stop : Cursor) : Lexed α := .error (.error kind (mkSpan start stop))

def isWhitespaceByte (b : UInt8) : Bool := b == 32 || b == 9 || b == 10 || b == 13 || b == 11 || b == 12
def isDigitByte (b : UInt8) : Bool := 48 ≤ b ∧ b ≤ 57

namespace Cursor

def advance (c : Cursor) (n : Nat) : Cursor := ⟨c.rest.drop n,c.pos+n⟩

def peekByte (c : Cursor) : Option UInt8 := c.rest.head?
def peekByteAt (c : Cursor) (offset : Nat) : Option UInt8 := c.rest[offset]?

def atDigit (c : Cursor) (offset : Nat) : Bool := (c.peekByteAt offset).any isDigitByte

def skipWhile (c : Cursor) (test : UInt8 → Bool) : Cursor := c.advance (c.rest.takeWhile test).length

def literal (start stop : Cursor) : String :=
  String.ofList ((start.rest.take (stop.pos-start.pos)).map fun b => Char.ofNat b.toNat)

/- The next character; `src[pos..]` panics inside of one. -/
def peekChar (c : Cursor) : Lexed (Option Char) :=
  match c.rest with
  | [] => .ok none
  | first :: _ =>
      if continues first then .error .panicked
      else .ok (c.rest.toByteArray.utf8DecodeChar? 0)

end Cursor

section

variable [Unicode]

def isAlphabetic (c : Char) : Bool :=
  ('a' ≤ c && c ≤ 'z') || ('A' ≤ c && c ≤ 'Z') || (127 < c.toNat && Unicode.alphabetic c)

def isNumeric (c : Char) : Bool := ('0' ≤ c && c ≤ '9') || (127 < c.toNat && Unicode.numeric c)

def isAlphanumeric (c : Char) : Bool := isAlphabetic c || isNumeric c

def startsIdent (c : Char) : Bool := c == '_' || isAlphabetic c
def continuesIdent (c : Char) : Bool := c == '_' || isAlphanumeric c

def isUnicodeIdentStart (c : Cursor) : Lexed Bool := (c.peekChar).map fun next => next.any startsIdent

def skipIdent : Nat → Cursor → Lexed Cursor
  | 0,c => .ok c
  | fuel+1,c => do
      match ← c.peekChar with
      | some next => if continuesIdent next then skipIdent fuel (c.advance next.utf8Size) else .ok c
      | none => .ok c

def lexIdentifierOrKeyword (start : Cursor) : Lexed (SpannedToken × Cursor) := do
  let first := match ← start.peekChar with
    | some c => start.advance c.utf8Size
    | none => start
  let stop ← skipIdent first.rest.length first
  let word := start.rest.take (stop.pos-start.pos)
  match lookup word with
  | none => .ok (⟨.ident,mkSpan start stop⟩,stop)
  | some keyword => .ok (⟨.keyword keyword,mkSpan start stop⟩,stop)

end

def blockEnd : Bytes → Option Nat
  | [] => none
  | first :: rest =>
      if first = 42 ∧ rest.head? = some 47 then some 2
      else (blockEnd rest).map (·+1)

def skipBlockComment (start : Cursor) : Lexed Cursor :=
  let opened := start.advance 2
  match blockEnd opened.rest with
  | some n => .ok (opened.advance n)
  | none => fail .unterminatedBlockComment start (opened.advance opened.rest.length)

/- Every turn that does not end the loop reads at least two bytes. -/
def skipTrivia : Nat → Cursor → Lexed Cursor
  | 0,c => .ok c
  | fuel+1,c =>
      let spaced := c.skipWhile isWhitespaceByte
      if spaced.peekByte = some 45 ∧ spaced.peekByteAt 1 = some 45 then
        skipTrivia fuel ((spaced.advance 2).skipWhile (· ≠ 10))
      else if spaced.peekByte = some 47 ∧ spaced.peekByteAt 1 = some 42 then do
        let closed ← skipBlockComment spaced
        skipTrivia fuel closed
      else .ok spaced

def isOperatorOrPunctStart (b : UInt8) : Bool :=
  b ∈ [40,41,44,59,42,46,61,33,60,62,43,45,47,37,36]

/- The loop of `lex_parameter`; the number so far is at most 65535. -/
def parameterDigits (start : Cursor) : Bytes → Nat → Nat → Lexed (Nat × Nat)
  | [],n,digits => .ok (n,digits)
  | b :: rest,n,digits =>
      if isDigitByte b then
        let next := 10*n+(b.toNat-48)
        if 65535 < next then fail (.unexpectedChar '$') start (start.advance (digits+1))
        else parameterDigits start rest next (digits+1)
      else .ok (n,digits)

def lexParameter (start : Cursor) : Lexed (Token × Cursor) := do
  let (n,digits) ← parameterDigits start start.rest 0 0
  if digits = 0 then fail (.unexpectedChar '$') start start
  else .ok (.parameter n,start.advance digits)

def lexOperatorOrPunct (start : Cursor) : Lexed (SpannedToken × Cursor) := do
  let next := start.advance 1
  let (kind,stop) ← match start.peekByte with
    | some 40 => .ok (.punct .lParen,next)
    | some 41 => .ok (.punct .rParen,next)
    | some 44 => .ok (.punct .comma,next)
    | some 59 => .ok (.punct .semicolon,next)
    | some 42 => .ok (.punct .star,next)
    | some 46 => .ok (.punct .dot,next)
    | some 61 => .ok (.op .eq,next)
    | some 43 => .ok (.op .plus,next)
    | some 45 => .ok (.op .minus,next)
    | some 47 => .ok (.op .div,next)
    | some 37 => .ok (.op .mod,next)
    | some 33 =>
        if next.peekByte = some 61 then .ok (.op .ne,next.advance 1)
        else fail (.unexpectedChar '!') start next
    | some 60 =>
        if next.peekByte = some 45 ∧ next.peekByteAt 1 = some 62 then .ok (.op .distance,next.advance 2)
        else if next.peekByte = some 61 then .ok (.op .le,next.advance 1)
        else if next.peekByte = some 62 then .ok (.op .ne,next.advance 1)
        else .ok (.op .lt,next)
    | some 62 => if next.peekByte = some 61 then .ok (.op .ge,next.advance 1) else .ok (.op .gt,next)
    | some 36 => lexParameter next
    | some b => fail (.unexpectedChar (Char.ofNat b.toNat)) start next
    | none => fail (.unexpectedChar (Char.ofNat 0)) start start
  .ok (⟨kind,mkSpan start stop⟩,stop)

def parseAsciiInt (digits : Bytes) : Option Nat :=
  digits.foldlM (fun n b => if isDigitByte b ∧ 10*n+(b.toNat-48) < 2^63 then some (10*n+(b.toNat-48)) else none) 0

def finishNumber (isFloat : Bool) (start stop : Cursor) : Lexed (SpannedToken × Cursor) :=
  if isFloat then
    match parse double (start.literal stop) with
    | some value => .ok (⟨.float value,mkSpan start stop⟩,stop)
    | none => fail (.invalidFloat (start.literal stop)) start stop
  else
    match parseAsciiInt (start.rest.take (stop.pos-start.pos)) with
    | some n => .ok (⟨.integer (Int64.ofNat n),mkSpan start stop⟩,stop)
    | none => fail (.integerOutOfRange (start.literal stop)) start stop

def lexExponent (isFloat : Bool) (start fraction : Cursor) : Lexed (SpannedToken × Cursor) :=
  if fraction.peekByte = some 101 ∨ fraction.peekByte = some 69 then
    let marked := fraction.advance 1
    let signed := if marked.peekByte = some 43 ∨ marked.peekByte = some 45 then marked.advance 1 else marked
    if ¬signed.atDigit 0 then fail (.invalidFloat (start.literal signed)) start signed
    else finishNumber true start (signed.skipWhile isDigitByte)
  else finishNumber isFloat start fraction

def lexNumber (start : Cursor) : Lexed (SpannedToken × Cursor) :=
  let leads : Bool := start.peekByte = some 46
  if leads ∧ ¬start.atDigit 1 then fail (.unexpectedChar '.') start (start.advance 1)
  else
    let whole := (if leads then start.advance 1 else start).skipWhile isDigitByte
    let divides : Bool := whole.peekByte = some 46 ∧ ¬leads ∧ whole.atDigit 1
    let fraction := if divides then (whole.advance 1).skipWhile isDigitByte else whole
    lexExponent (leads || divides) start fraction

def lexNumberFast (first : UInt8) (start : Cursor) : Lexed (SpannedToken × Cursor) :=
  let goesOn : Bool := (start.peekByteAt 1).any fun b => isDigitByte b || b == 46 || b == 101 || b == 69
  if goesOn then lexNumber start
  else .ok (⟨.integer (Int64.ofNat (first.toNat-48)),mkSpan start (start.advance 1)⟩,start.advance 1)

/- The loop of `lex_string` and `lex_quoted_ident`: the quote ends the text unless it is
doubled. The characters so far are in reverse. -/
def lexQuoted (quote : UInt8) (unterminated : LexErrorKind) (start : Cursor) :
    Nat → Cursor → List Char → Lexed (String × Cursor)
  | 0,c,_ => fail unterminated start c
  | fuel+1,c,value =>
      if c.rest = [] then fail unterminated start c
      else if c.peekByte = some quote then
        let next := c.advance 1
        if next.peekByte = some quote then
          lexQuoted quote unterminated start fuel (next.advance 1) (Char.ofNat quote.toNat :: value)
        else .ok (String.ofList value.reverse,next)
      else do
        match ← c.peekChar with
        | none => fail unterminated start c
        | some ch => lexQuoted quote unterminated start fuel (c.advance ch.utf8Size) (ch :: value)

def lexString (start : Cursor) : Lexed (SpannedToken × Cursor) := do
  let opened := start.advance 1
  let (value,stop) ← lexQuoted 39 .unterminatedString start (opened.rest.length+1) opened []
  .ok (⟨.string value,mkSpan start stop⟩,stop)

def lexQuotedIdent (start : Cursor) : Lexed (SpannedToken × Cursor) := do
  let opened := start.advance 1
  let (value,stop) ← lexQuoted 34 .unterminatedQuotedIdent start (opened.rest.length+1) opened []
  .ok (⟨.quotedIdent value,mkSpan start stop⟩,stop)

section

variable [Unicode]

def isIdentStartByte (b : UInt8) : Bool := (97 ≤ b ∧ b ≤ 122) ∨ (65 ≤ b ∧ b ≤ 90) ∨ b = 95

/- The part of `next_token` behind blanks and comments; `b` is the next byte. -/
def lexToken (b : UInt8) (start : Cursor) : Lexed (SpannedToken × Cursor) := do
  if ← isUnicodeIdentStart start then lexIdentifierOrKeyword start
  else if isIdentStartByte b then lexIdentifierOrKeyword start
  else if isDigitByte b then lexNumberFast b start
  else if b = 39 then lexString start
  else if b = 34 then lexQuotedIdent start
  else if b = 46 ∧ start.atDigit 1 then lexNumber start
  else if isOperatorOrPunctStart b then lexOperatorOrPunct start
  else fail (.unexpectedChar (Char.ofNat b.toNat)) start (start.advance 1)

def nextToken (c : Cursor) : Lexed (Option SpannedToken × Cursor) := do
  let start ← skipTrivia (c.rest.length+1) c
  match start.peekByte with
  | none => .ok (none,start)
  | some b =>
      let (token,stop) ← lexToken b start
      .ok (some token,stop)

/- The tokens from a position on; every token reads at least one byte. -/
def tokensFrom : Nat → Cursor → Lexed (List SpannedToken)
  | 0,_ => .ok []
  | fuel+1,c => do
      match ← nextToken c with
      | (none,_) => .ok []
      | (some token,next) =>
          let more ← tokensFrom fuel next
          .ok (token :: more)

def tokenize (src : String) : Lexed (List SpannedToken) := do
  let bytes := utf8 src
  let tokens ← tokensFrom (bytes.length+1) ⟨bytes,0⟩
  .ok (tokens ++ [⟨.eof,⟨bytes.length%2^32,bytes.length%2^32⟩⟩])

end

end NoeDB.Lexer
