import NoeDB.Operands

/-! Token lists that write an expression so that the parser gives it back.
Parentheses stand where the tree has them; where an operator stands without, its operands
end and begin with operators of levels that leave them as they are. -/
namespace NoeDB.Parser
open Keywords Lexer SqlAst List

inductive Named : String → Tok → Prop
  | plain (text) : Named text ⟨.ident,text⟩
  | quoted (value text) : Named value ⟨.quotedIdent value,text⟩

inductive WrittenLiteral : Literal → Tok → Prop
  | null (text) : WrittenLiteral .null ⟨.keyword .null,text⟩
  | integer (value text) : WrittenLiteral (.integer value) ⟨.integer value,text⟩
  | string (value text) : WrittenLiteral (.string value) ⟨.string value,text⟩
  | true (text) : WrittenLiteral (.boolean true) ⟨.keyword .true,text⟩
  | false (text) : WrittenLiteral (.boolean false) ⟨.keyword .false,text⟩

inductive Marked (word : Keyword) : Bool → Tokens → Prop
  | absent : Marked word false []
  | present (text) : Marked word true [⟨.keyword word,text⟩]

inductive Separated {α : Type} (R : α → Tokens → Prop) : List α → Tokens → Prop
  | one {x used} : R x used → Separated R [x] used
  | more {x xs used rest} (text) : R x used → Separated R xs rest →
      Separated R (x :: xs) (used ++ ⟨.punct .comma,text⟩ :: rest)

inductive Closed {α : Type} (R : α → Tokens → Prop) : List α → Tokens → Prop
  | nil (text) : Closed R [] [⟨.punct .rParen,text⟩]
  | some {xs used} (text) : Separated R xs used → Closed R xs (used ++ [⟨.punct .rParen,text⟩])

inductive WrittenExpr : Expr → Tokens → Prop
  | literal {value tok} : WrittenLiteral value tok → WrittenExpr (.literal value) [tok]
  | column {name tok} : Named name tok → WrittenExpr (.column (.named none name)) [tok]
  | qualified {table name first last} (text) : Named table first → Named name last →
      WrittenExpr (.column (.named (some table) name)) [first,⟨.punct .dot,text⟩,last]
  | binary {op left right tok before after} : BinaryTok op tok → opLevel op < reach left →
      (rightPrec op).rank ≤ tightness right → WrittenExpr left before → WrittenExpr right after →
      WrittenExpr (.binary op left right) (before ++ tok :: after)
  | not {expr used} (text) : Prec.and.rank ≤ tightness expr → WrittenExpr expr used →
      WrittenExpr (.unary .not expr) (⟨.keyword .not,text⟩ :: used)
  | minus {expr used} (text) : Prec.add.rank ≤ tightness expr → WrittenExpr expr used →
      WrittenExpr (.unary .minus expr) (⟨.op .minus,text⟩ :: used)
  | isNull {expr negated used not} (word null) : 4 < reach expr → WrittenExpr expr used → Marked .not negated not →
      WrittenExpr (.isNull expr negated) (used ++ ⟨.keyword .is,word⟩ :: (not ++ [⟨.keyword .null,null⟩]))
  | inList {expr negated values used not list} (word open') : 4 < reach expr → WrittenExpr expr used →
      Marked .not negated not → Closed WrittenExpr values list →
      WrittenExpr (.inList expr values negated)
        (used ++ (not ++ ⟨.keyword .in',word⟩ :: ⟨.punct .lParen,open'⟩ :: list))
  | between {expr low high negated used not first last} (word and) : 4 < reach expr → 2 < reach low →
      Prec.compare.rank ≤ tightness low → Prec.compare.rank ≤ tightness high → WrittenExpr expr used →
      Marked .not negated not → WrittenExpr low first → WrittenExpr high last →
      WrittenExpr (.between expr low high negated)
        (used ++ (not ++ ⟨.keyword .between,word⟩ :: (first ++ ⟨.keyword .and,and⟩ :: last)))
  | paren {expr used} (open' close) : WrittenExpr expr used →
      WrittenExpr (.paren expr) (⟨.punct .lParen,open'⟩ :: (used ++ [⟨.punct .rParen,close⟩]))

mutual

def strip : Expr → Expr
  | .binary op left right => .binary op (strip left) (strip right)
  | .unary op expr => .unary op (strip expr)
  | .isNull expr negated => .isNull (strip expr) negated
  | .inList expr values negated => .inList (strip expr) (stripList values) negated
  | .between expr low high negated => .between (strip expr) (strip low) (strip high) negated
  | .paren inner => strip inner
  | expr => expr

def stripList : List Expr → List Expr
  | [] => []
  | expr :: rest => strip expr :: stripList rest

end

def opens (toks : Tokens) : Bool :=
  !(atKeyword .select toks || atKeyword .with' toks || atKeyword .exists' toks || atKeyword .distinct toks ||
    atPunct .rParen toks)

theorem namedOpens (named : Named name tok) (rest) : opens (tok :: rest) = true := by
  cases named <;> rfl

theorem literalOpens (written : WrittenLiteral value tok) (rest) : opens (tok :: rest) = true := by
  cases written <;> rfl

theorem writtenOpens (rest : Tokens) : ∀ {expr : Expr}, WrittenExpr expr used → opens (used ++ rest) = true := by
  induction size : used.length using Nat.strong_induction_on generalizing used rest with
  | _ size ih =>
  intro _ written
  subst size
  cases written with
  | literal written => exact literalOpens written _
  | column named => exact namedOpens named _
  | qualified _ named => exact namedOpens named _
  | binary _ _ _ written | isNull _ _ _ written =>
    rw [append_assoc]
    exact ih _ (by simp) _ rfl written
  | inList _ _ _ written | between _ _ _ _ _ _ written =>
    rw [append_assoc]
    exact ih _ (by simp only [length_append,length_cons]; omega) _ rfl written
  | not | minus | paren => rfl

theorem separatedOpens (written : Separated WrittenExpr values used) (rest) : opens (used ++ rest) = true := by
  cases written with
  | one written => exact writtenOpens rest written
  | more _ written =>
    rw [append_assoc]
    exact writtenOpens _ written

end NoeDB.Parser
