import NoeDB.LexerLocality

/-! The lexer over characters instead of bytes: what is skipped, and what the next token
is. Words of ASCII are read as the byte cursor reads them. -/
namespace NoeDB.Scanner
open ByteString Text Keywords Lexer

def encode (chars : List Char) : Bytes := chars.flatMap String.utf8EncodeChar

@[simp] theorem encodeNil : encode [] = [] := rfl
@[simp] theorem encodeCons (c chars) : encode (c :: chars) = String.utf8EncodeChar c ++ encode chars := rfl
@[simp] theorem encodeAppend (left right) : encode (left ++ right) = encode left ++ encode right := by
  simp [encode]

def onAscii (test : UInt8 → Bool) (c : Char) : Bool := c.toNat < 128 && test (UInt8.ofNat c.toNat)

def isSpace : Char → Bool := onAscii isWhitespaceByte
def isDigit : Char → Bool := onAscii isDigitByte

def blockRest : List Char → Option (List Char)
  | [] => none
  | c :: rest => if c = '*' ∧ rest.head? = some '/' then some (rest.drop 1) else blockRest rest

theorem blockRestShorter (closed : blockRest chars = some rest) : rest.length < chars.length := by
  fun_induction blockRest chars with
  | case1 => cases closed
  | case2 =>
    cases Option.some.inj closed
    simp only [List.length_drop,List.length_cons]
    omega
  | case3 _ _ _ ih =>
    have := ih closed
    simp only [List.length_cons]
    omega

theorem twoTaken {a b : Char} (two : chars.take 2 = [a,b]) : ∃ rest,chars = a :: b :: rest := by
  refine ⟨chars.drop 2,?_⟩
  have whole := chars.take_append_drop 2
  rw [two] at whole
  exact whole.symm

theorem lineShorter {chars : List Char} {a b : Char} (two : (chars.dropWhile isSpace).take 2 = [a,b]) :
    (((chars.dropWhile isSpace).drop 2).dropWhile (· ≠ '\n')).length < chars.length := by
  obtain ⟨rest,spaced⟩ := twoTaken two
  have dropped : (chars.dropWhile isSpace).length ≤ chars.length := (List.dropWhile_sublist _).length_le
  have fewer : (rest.dropWhile (· ≠ '\n')).length ≤ rest.length := (List.dropWhile_sublist _).length_le
  rw [spaced] at dropped ⊢
  simp only [List.length_cons,List.drop_succ_cons,List.drop_zero] at dropped ⊢
  omega

theorem blockShorter {chars rest : List Char} {a b : Char} (two : (chars.dropWhile isSpace).take 2 = [a,b])
    (closed : blockRest ((chars.dropWhile isSpace).drop 2) = some rest) : rest.length < chars.length := by
  obtain ⟨_,spaced⟩ := twoTaken two
  have dropped : (chars.dropWhile isSpace).length ≤ chars.length := (List.dropWhile_sublist _).length_le
  rw [spaced] at dropped closed
  have fewer := blockRestShorter closed
  simp only [List.length_cons,List.drop_succ_cons,List.drop_zero] at dropped fewer
  omega

def skip (chars : List Char) : Option (List Char) :=
  if (chars.dropWhile isSpace).take 2 = ['-','-'] then
    skip (((chars.dropWhile isSpace).drop 2).dropWhile (· ≠ '\n'))
  else if (chars.dropWhile isSpace).take 2 = ['/','*'] then
    match _closed : blockRest ((chars.dropWhile isSpace).drop 2) with
    | some rest => skip rest
    | none => none
  else some (chars.dropWhile isSpace)
termination_by chars.length
decreasing_by
  · exact lineShorter (by assumption)
  · exact blockShorter (by assumption) (by assumption)

section

variable {chars rest : List Char}

theorem skipSpaces (chars) : skip chars = skip (chars.dropWhile isSpace) := by
  have same : (chars.dropWhile isSpace).dropWhile isSpace = chars.dropWhile isSpace := by
    induction chars with
    | nil => rfl
    | cons first _ ih => cases space : isSpace first <;> simp [space,ih]
  conv_rhs => rw [skip]
  rw [same,skip]

theorem skipLineComment (rest) : skip ('-' :: '-' :: rest) = skip (rest.dropWhile (· ≠ '\n')) := by
  have spaced : ('-' :: '-' :: rest).dropWhile isSpace = '-' :: '-' :: rest := List.dropWhile_cons_of_neg (by decide)
  rw [skip,spaced]
  rfl

theorem skipBlockClosed {behind} (closed : blockRest rest = some behind) : skip ('/' :: '*' :: rest) = skip behind := by
  have spaced : ('/' :: '*' :: rest).dropWhile isSpace = '/' :: '*' :: rest := List.dropWhile_cons_of_neg (by decide)
  have block : ('/' :: '*' :: rest).take 2 = ['/','*'] := rfl
  rw [skip,spaced,if_neg (by simp),if_pos block]
  split
  · rename_i found same
    cases Option.some.inj (closed.symm.trans same)
    rfl
  · rename_i same
    cases closed.symm.trans same

theorem skipNothing (filled : isSpace first = false) (unlined : (first :: rest).take 2 ≠ ['-','-'])
    (unblocked : (first :: rest).take 2 ≠ ['/','*']) : skip (first :: rest) = some (first :: rest) := by
  have spaced : (first :: rest).dropWhile isSpace = first :: rest := List.dropWhile_cons_of_neg (by rw [filled]; decide)
  rw [skip,spaced,if_neg unlined,if_neg unblocked]

end

def wordKind (text : List Char) : Token :=
  match lookup (encode text) with
  | none => .ident
  | some keyword => .keyword keyword

def scanQuoted (quote : Char) : List Char → List Char → Option (List Char × List Char)
  | [],_ => none
  | [c],value => if c = quote then some (value.reverse,[]) else none
  | c :: d :: rest,value =>
      if c = quote then
        if d = quote then scanQuoted quote rest (quote :: value)
        else some (value.reverse,d :: rest)
      else scanQuoted quote (d :: rest) (c :: value)

def plain (c : Char) : Bool := c.toNat < 128 && c ≠ '\n'

def readWord (lex : Cursor → Lexed (SpannedToken × Cursor)) (chars : List Char) : Option (Token × List Char) :=
  match lex ⟨encode (chars.takeWhile plain),0⟩ with
  | .ok (token,stop) => some (token.kind,chars.drop stop.pos)
  | .error _ => none

section

variable [Unicode]

def scanToken : List Char → Option (Token × List Char)
  | [] => none
  | c :: rest =>
      if startsIdent c then some (wordKind (c :: rest.takeWhile continuesIdent),rest.dropWhile continuesIdent)
      else if isDigit c then readWord (lexNumberFast (UInt8.ofNat c.toNat)) (c :: rest)
      else if c = '\'' then (scanQuoted '\'' rest []).map fun found => (.string (String.ofList found.1),found.2)
      else if c = '"' then (scanQuoted '"' rest []).map fun found => (.quotedIdent (String.ofList found.1),found.2)
      else if c = '.' ∧ rest.head?.any isDigit then readWord lexNumber (c :: rest)
      else if onAscii isOperatorOrPunctStart c then readWord lexOperatorOrPunct (c :: rest)
      else none

structure Lexeme where
  start : List Char
  kind : Token
  rest : List Char

inductive Scans : List Char → List Lexeme → Prop where
  | done {chars : List Char} (ended : skip chars = some []) : Scans chars []
  | token {chars start rest : List Char} {kind : Token} {more : List Lexeme} (skipped : skip chars = some start)
      (found : scanToken start = some (kind,rest)) (next : Scans rest more) : Scans chars (⟨start,kind,rest⟩ :: more)

end

end NoeDB.Scanner
