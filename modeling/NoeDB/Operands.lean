import NoeDB.Parser

/-! How far the loop of the expression parser reads. The parser of an operand stops at a
token of a level below its own minimum, so an expression that ends in such an operand
takes over every token of at least that level. -/
namespace NoeDB.Parser
open Keywords Lexer SqlAst

section

variable {word other : Keyword} {mark found : Punctuation} {text : String} {rest : Tokens}

@[simp] theorem atKeywordCons : atKeyword word (⟨.keyword other,text⟩ :: rest) = (other == word) := rfl
@[simp] theorem atKeywordPunct : atKeyword word (⟨.punct mark,text⟩ :: rest) = false := rfl
@[simp] theorem atKeywordOp : atKeyword word (⟨.op op,text⟩ :: rest) = false := rfl
@[simp] theorem atKeywordNil : atKeyword word [] = false := rfl
@[simp] theorem atPunctCons : atPunct mark (⟨.punct found,text⟩ :: rest) = (found == mark) := rfl
@[simp] theorem atPunctKeyword : atPunct mark (⟨.keyword word,text⟩ :: rest) = false := rfl
@[simp] theorem atPunctOp : atPunct mark (⟨.op op,text⟩ :: rest) = false := rfl
@[simp] theorem headOperatorOp : headOperator (⟨.op op,text⟩ :: rest) = some op := rfl
@[simp] theorem headOperatorKeyword : headOperator (⟨.keyword word,text⟩ :: rest) = none := rfl
@[simp] theorem headOperatorPunct : headOperator (⟨.punct mark,text⟩ :: rest) = none := rfl

@[simp] theorem expectKeywordCons : expectKeyword word (⟨.keyword word,text⟩ :: rest) = .ok rest := by
  simp [expectKeyword]

@[simp] theorem expectPunctCons : expectPunct mark (⟨.punct mark,text⟩ :: rest) = .ok rest := by
  simp [expectPunct]

theorem keywordHead (holds : atKeyword word toks = true) : ∃ text rest, toks = ⟨.keyword word,text⟩ :: rest := by
  unfold atKeyword at holds
  split at holds
  · rename_i found text rest
    cases beq_iff_eq.mp holds
    exact ⟨text,rest,rfl⟩
  · contradiction

theorem operatorHead (holds : headOperator toks = some op) : ∃ text rest, toks = ⟨.op op,text⟩ :: rest := by
  unfold headOperator at holds
  split at holds
  · rename_i found text rest
    cases Option.some.inj holds
    exact ⟨text,rest,rfl⟩
  · contradiction

end

def atPredicate (toks : Tokens) : Bool :=
  atKeyword .is toks || atKeyword .not toks || atKeyword .in' toks || atKeyword .between toks ||
    atKeyword .over' toks || atKeyword .like toks

def operatorLevel (toks : Tokens) : Nat :=
  match headOperator toks with
  | some op => if compares op then 3 else 4
  | none => if atPunct .star toks then 4 else 0

/- The level of the token an expression would go on with, 0 if it ends there. -/
def level (toks : Tokens) : Nat :=
  if atKeyword .or toks then 1
  else if atKeyword .and toks then 2
  else if atPredicate toks then 4
  else operatorLevel toks

def opLevel : BinaryOp → Nat
  | .or => 1
  | .and => 2
  | .eq | .ne | .lt | .gt | .le | .ge | .distance => 3
  | .plus | .minus | .div | .mod | .mul | .like => 4

def rightPrec : BinaryOp → Prec
  | .or => .and
  | .and | .eq | .ne | .lt | .gt | .le | .ge | .distance | .like => .compare
  | .plus | .minus | .div | .mod | .mul => .add

def unaryPrec : UnaryOp → Prec
  | .not => .and
  | .minus => .add

/- The least level of a token that the last operand of an expression takes over. -/
def reach : Expr → Nat
  | .binary op _ right => min (rightPrec op).rank (reach right)
  | .unary op expr => min (unaryPrec op).rank (reach expr)
  | .between _ _ high _ => min Prec.compare.rank (reach high)
  | .literal _ | .column _ | .isNull _ _ | .inList _ _ _ | .inSubquery _ _ _ | .existsQuery _ _
  | .scalarSubquery _ | .paren _ | .parameter _ | .currentUser | .cast _ _ | .function _ _ _ => 5

/- The largest minimum with which the loop reads all operators of an expression. -/
def tightness : Expr → Nat
  | .binary op left _ => min (opLevel op) (tightness left)
  | .between expr _ _ _ | .isNull expr _ | .inList expr _ _ | .inSubquery expr _ _ => tightness expr
  | .literal _ | .column _ | .unary _ _ | .existsQuery _ _
  | .scalarSubquery _ | .paren _ | .parameter _ | .currentUser | .cast _ _ | .function _ _ _ => 5

@[simp] theorem rankOr : Prec.or.rank = 1 := rfl
@[simp] theorem rankAnd : Prec.and.rank = 2 := rfl
@[simp] theorem rankCompare : Prec.compare.rank = 3 := rfl
@[simp] theorem rankAdd : Prec.add.rank = 4 := rfl

theorem rankBound (min : Prec) : 1 ≤ min.rank ∧ min.rank ≤ 4 := by
  cases min <;> decide

theorem tightnessPositive : ∀ expr : Expr, 1 ≤ tightness expr
  | .binary op left _ => by
      have := tightnessPositive left
      have : 1 ≤ opLevel op := by cases op <;> decide
      simp only [tightness]
      omega
  | .between expr _ _ _ | .isNull expr _ | .inList expr _ _ | .inSubquery expr _ _ => by
      have := tightnessPositive expr
      simpa only [tightness] using this
  | .literal _ | .column _ | .unary _ _ | .existsQuery _ _
  | .scalarSubquery _ | .paren _ | .parameter _ | .currentUser | .cast _ _ | .function _ _ _ => by
      simp only [tightness]
      omega

section

variable {P : Parsers} {min : Prec} {left expr : Expr} {toks mid rest : Tokens}

theorem turnStops (low : level rest < min.rank) : exprTurn P min left rest = .ok (none,rest) := by
  have bound := rankBound min
  unfold level at low
  split at low
  · rename_i holds
    obtain ⟨text,more,rfl⟩ := keywordHead holds
    have above : ¬ min.rank ≤ 1 := by omega
    simp [exprTurn,laterTurn,binaryTurn,dropKeyword,above]
  split at low
  · rename_i holds
    obtain ⟨text,more,rfl⟩ := keywordHead holds
    have above : ¬ min.rank ≤ 2 := by omega
    simp [exprTurn,laterTurn,binaryTurn,dropKeyword,above]
  split at low
  · omega
  rename_i noOr noAnd noPredicate
  simp only [atPredicate,Bool.or_eq_true,not_or,Bool.not_eq_true] at noOr noAnd noPredicate
  unfold operatorLevel at low
  split at low
  · rename_i op found
    split at low
    · rename_i comparison
      obtain ⟨_,_,rfl⟩ := operatorHead found
      have above : ¬ min.rank ≤ 3 := by omega
      simp [exprTurn,laterTurn,binaryTurn,dropKeyword,comparison,above]
    · omega
  · rename_i found
    split at low
    · omega
    · rename_i noStar
      simp [exprTurn,laterTurn,binaryTurn,dropKeyword,noOr,noAnd,noPredicate,found,noStar]

def Reaches (P : Parsers) (min : Prec) (toks : Tokens) (expr : Expr) (rest : Tokens) : Prop :=
  ∃ first mid, parsePrefix P toks = .ok (first,mid) ∧
    ∀ fuel, mid.length < fuel → ∃ less, rest.length < less ∧
      exprLoop P min fuel first mid = exprLoop P min less expr rest

theorem Reaches.start (read : parsePrefix P toks = .ok (expr,rest)) : Reaches P min toks expr rest :=
  ⟨expr,rest,read,fun fuel enough => ⟨fuel,enough,rfl⟩⟩

theorem Reaches.turn (reached : Reaches P min toks left mid)
    (turned : exprTurn P min left mid = .ok (some next,rest)) (shorter : rest.length < mid.length) :
    Reaches P min toks next rest := by
  obtain ⟨first,start,read,loops⟩ := reached
  refine ⟨first,start,read,fun fuel enough => ?_⟩
  obtain ⟨less,_,same⟩ := loops fuel enough
  obtain ⟨less,rfl⟩ : ∃ n, less = n+1 := ⟨less-1,by omega⟩
  refine ⟨less,by omega,?_⟩
  rw [same,exprLoop,turned]
  rfl

theorem Reaches.ends (reached : Reaches P min toks expr rest) (low : level rest < min.rank) :
    parseExprPrec P min toks = .ok (expr,rest) := by
  obtain ⟨first,mid,read,loops⟩ := reached
  obtain ⟨less,_,same⟩ := loops (mid.length+1) (by omega)
  obtain ⟨less,rfl⟩ : ∃ n, less = n+1 := ⟨less-1,by omega⟩
  have stops : exprTurn P min expr rest = .ok (none,rest) := turnStops low
  calc parseExprPrec P min toks = exprLoop P min (mid.length+1) first mid := by
        simp only [parseExprPrec,read]
        rfl
    _ = exprLoop P min (less+1) expr rest := same
    _ = .ok (expr,rest) := by
        rw [exprLoop,stops]
        rfl

end

inductive BinaryTok : BinaryOp → Tok → Prop
  | or (text) : BinaryTok .or ⟨.keyword .or,text⟩
  | and (text) : BinaryTok .and ⟨.keyword .and,text⟩
  | like (text) : BinaryTok .like ⟨.keyword .like,text⟩
  | star (text) : BinaryTok .mul ⟨.punct .star,text⟩
  | op (operator text) : BinaryTok (operatorToBinary operator) ⟨.op operator,text⟩

theorem BinaryTok.levelIs {op tok} (token : BinaryTok op tok) (rest) : level (tok :: rest) = opLevel op := by
  cases token with
  | op operator => cases operator <;> rfl
  | _ => rfl

theorem BinaryTok.turns {P min left op tok} (token : BinaryTok op tok) (high : min.rank ≤ opLevel op) (rest) :
    exprTurn P min left (tok :: rest) = operandTurn P op (rightPrec op) left rest := by
  cases token with
  | or | and => simp_all [exprTurn,laterTurn,binaryTurn,dropKeyword,opLevel,rightPrec]
  | like => simp [exprTurn,laterTurn,dropKeyword,rightPrec]
  | star => simp [exprTurn,laterTurn,binaryTurn,dropKeyword,rightPrec]
  | op operator =>
    cases operator <;> simp_all [exprTurn,laterTurn,binaryTurn,dropKeyword,opLevel,rightPrec,operatorToBinary,compares]

end NoeDB.Parser
