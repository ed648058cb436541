import NoeDB.Written

/-! The parser reads what is written. Each parser of a part is given the parsers one level
down as far as they read everything up to some number of tokens; then it reads one token
more. -/
namespace NoeDB.Parser
open Keywords Lexer SqlAst List

@[simp] theorem okBind {ε α β : Type} (a) (f : α → Except ε β) : (Except.ok a >>= f) = f a := rfl

def Apart (toks : Tokens) : Prop := atPunct .lParen toks = false ∧ atPunct .dot toks = false

theorem reachPositive : ∀ expr : Expr, 2 ≤ reach expr
  | .binary op _ right => by
      have := reachPositive right
      have : 2 ≤ (rightPrec op).rank := by cases op <;> decide
      simp only [reach]
      omega
  | .unary op expr => by
      have := reachPositive expr
      have : 2 ≤ (unaryPrec op).rank := by cases op <;> decide
      simp only [reach]
      omega
  | .between _ _ high _ => by
      have := reachPositive high
      simp only [reach,rankCompare]
      omega
  | .literal _ | .column _ | .isNull _ _ | .inList _ _ _ | .inSubquery _ _ _ | .existsQuery _ _
  | .scalarSubquery _ | .paren _ | .parameter _ | .currentUser | .cast _ _ | .function _ _ _ => by
      simp only [reach]
      omega

structure ReadsUpTo (P : Parsers) (n : Nat) : Prop where
  expr : ∀ {expr used}, WrittenExpr expr used → used.length ≤ n → ∀ {min : Prec} {rest}, min.rank ≤ tightness expr →
    level rest < min.rank → level rest < reach expr → Apart rest → P.expr min (used ++ rest) = .ok (expr,rest)

section

variable {α : Type} {R : α → Tokens → Prop} (Ends : Tokens → Prop) {item : Reader α} {n : Nat}

theorem separatedReads (comma : ∀ text more, Ends (⟨.punct .comma,text⟩ :: more))
    (reads : ∀ {x used rest}, R x used → used.length ≤ n → Ends rest → item (used ++ rest) = .ok (x,rest))
    {xs : List α} {used rest : Tokens} (written : Separated R xs used) (short : used.length ≤ n) (ends : Ends rest)
    (last : atPunct .comma rest = false) {fuel : Nat} (enough : used.length < fuel+1) :
    separated item (fuel+1) (used ++ rest) = .ok (xs,rest) := by
  induction written generalizing fuel with
  | one written =>
    simp [separated,reads written short ends,last]
  | more _ written _ ih =>
    simp only [length_append,length_cons] at short enough
    obtain ⟨fuel,rfl⟩ : ∃ k, fuel = k+1 := ⟨fuel-1,by omega⟩
    have tail : separated item (fuel+1) _ = .ok (_,rest) := ih (by omega) (by omega)
    rw [append_assoc,cons_append,separated,reads written (by omega) (comma _ _)]
    simp [tail]

end

theorem literalReads (written : WrittenLiteral value tok) (rest) :
    parsePrefix P (tok :: rest) = .ok (.literal value,rest) := by
  cases written <;> simp [parsePrefix,parseParameter,parseAtom,atKeyword,atPunct,headOperator]

theorem namedReads (named : Named name tok) (rest) : parseIdent (tok :: rest) = .ok (name,rest) := by
  cases named <;> rfl

theorem namedFirst (named : Named name tok) (rest) :
    parsePrefix P (tok :: rest) = parseIdentExpr P (tok :: rest) := by
  cases named <;> simp [parsePrefix,parseParameter,parseAtom,atKeyword,atPunct,headOperator]

theorem namedPunct (named : Named name tok) (mark rest) : atPunct mark (tok :: rest) = false := by
  cases named <;> rfl

theorem markedReads (written : Marked word marked used) (next : atKeyword word rest = false) :
    atKeyword word (used ++ rest) = marked ∧ dropKeyword word (used ++ rest) = rest := by
  cases written with
  | absent => exact ⟨next,by simp [dropKeyword,next]⟩
  | present => exact ⟨by simp,by simp [dropKeyword]⟩

theorem opensNone (opened : opens toks = true) :
    atKeyword .select toks = false ∧ atKeyword .with' toks = false ∧ atKeyword .exists' toks = false ∧
      atKeyword .distinct toks = false ∧ atPunct .rParen toks = false := by
  simpa [opens,and_assoc] using opened

theorem closedOpens (written : Closed WrittenExpr values used) (rest) : atKeyword .select (used ++ rest) = false := by
  cases written with
  | nil => rfl
  | some _ written =>
    rw [append_assoc]
    exact (opensNone (separatedOpens written _)).1

section

variable {negated : Bool} {not rest : Tokens} {word : Keyword} {text : String} (marked : Marked .not negated not)
include marked

theorem negatedLevel (fixed : level (⟨.keyword word,text⟩ :: rest) = 4) :
    level (not ++ ⟨.keyword word,text⟩ :: rest) = 4 := by
  cases marked with
  | absent => exact fixed
  | present => rfl

theorem negatedApart : Apart (not ++ ⟨.keyword word,text⟩ :: rest) := by
  cases marked <;> exact ⟨rfl,rfl⟩

theorem inTurns {min} : exprTurn P min left (not ++ ⟨.keyword .in',text⟩ :: rest) = inTurn P left negated rest := by
  cases marked <;> simp [exprTurn]

theorem betweenTurns {min} :
    exprTurn P min left (not ++ ⟨.keyword .between,text⟩ :: rest) = betweenTurn P left negated rest := by
  cases marked <;> simp [exprTurn,laterTurn,dropKeyword]

end

section

variable {P : Parsers} {n : Nat} (reads : ReadsUpTo P n)
include reads

theorem ReadsUpTo.whole {expr used rest} (written : WrittenExpr expr used) (short : used.length ≤ n)
    (ends : level rest = 0) (apart : Apart rest) : parseExpr P (used ++ rest) = .ok (expr,rest) := by
  have := reachPositive expr
  exact reads.expr written short (tightnessPositive expr) (by simp [ends]) (by omega) apart

theorem ReadsUpTo.arguments (written : Closed WrittenExpr values used)
    (short : used.length ≤ n+1) : parseArguments P (used ++ rest) = .ok (values,rest) := by
  cases written with
  | nil => simp [parseArguments,closedList,untilClose]
  | @some _ list text written =>
    simp only [length_append,length_cons,length_nil] at short
    obtain ⟨_,_,_,_,closed⟩ := opensNone (separatedOpens written (⟨.punct .rParen,text⟩ :: rest))
    have list : commaList (parseExpr P) (list ++ ⟨.punct .rParen,text⟩ :: rest) = .ok (values,_) :=
      separatedReads (fun toks => level toks = 0 ∧ Apart toks) (fun _ _ => ⟨rfl,rfl,rfl⟩)
        (fun written short ends => reads.whole written short ends.1 ends.2) written (by omega) ⟨rfl,rfl,rfl⟩ rfl
        (by rw [length_append]; omega)
    simp [parseArguments,closedList,untilClose,closed,list]

theorem writtenReaches {used} : ∀ {expr : Expr}, WrittenExpr expr used → used.length ≤ n+1 →
    ∀ {min : Prec} {rest : Tokens}, min.rank ≤ tightness expr → level rest < reach expr → Apart rest →
      Reaches P min (used ++ rest) expr rest := by
  induction size : used.length using Nat.strong_induction_on generalizing used with
  | _ size ih =>
  intro expr written short min rest high low apart
  subst size
  cases written with
  | literal written => exact .start (literalReads written rest)
  | column named =>
    refine .start ((namedFirst named _).trans ?_)
    simp [parseIdentExpr,namedReads named,apart.1,parseColumnFromIdent,apart.2]
  | qualified _ table column =>
    refine .start ((namedFirst table _).trans ?_)
    have star := namedPunct column .star
    simp [parseIdentExpr,namedReads table,parseColumnFromIdent,star,namedReads column]
  | @binary op left right tok before after token far tight first second =>
    simp only [tightness,Nat.le_min] at high
    simp only [reach,Nat.lt_min] at low
    simp only [length_append,length_cons] at short ih
    rw [append_assoc,cons_append]
    have reached : Reaches P min (before ++ tok :: (after ++ rest)) left (tok :: (after ++ rest)) :=
      ih _ (by omega) rfl first (by omega) high.2 (by rw [token.levelIs]; exact far) (by cases token <;> exact ⟨rfl,rfl⟩)
    refine reached.turn ?_ (by simp only [length_append,length_cons]; omega)
    rw [token.turns high.1,operandTurn,reads.expr second (by omega) tight low.1 low.2 apart]
    rfl
  | @not expr used text tight written =>
    simp only [reach,unaryPrec,Nat.lt_min] at low
    simp only [length_cons] at short
    obtain ⟨_,_,noExists,_⟩ := opensNone (writtenOpens rest written)
    refine .start ?_
    simp [parsePrefix,noExists,parseUnary,reads.expr written (by omega) tight low.1 low.2 apart]
  | @minus expr used text tight written =>
    simp only [reach,unaryPrec,Nat.lt_min] at low
    simp only [length_cons] at short
    refine .start ?_
    simp [parsePrefix,parseUnary,reads.expr written (by omega) tight low.1 low.2 apart]
  | @isNull expr negated used not word null far written marked =>
    simp only [length_append,length_cons,length_nil] at short ih
    rw [append_assoc]
    have reached := ih _ (by omega) rfl written (by omega) high
      (show level (⟨.keyword .is,word⟩ :: (not ++ [⟨.keyword .null,null⟩]) ++ rest) < reach expr from far) ⟨rfl,rfl⟩
    refine reached.turn ?_ (by simp only [length_append,length_cons,length_nil]; omega)
    have next : atKeyword .not ([⟨.keyword .null,null⟩] ++ rest) = false := rfl
    obtain ⟨found,dropped⟩ := markedReads marked next
    simp [exprTurn,isNullTurn] at found dropped ⊢
    simp [found,dropped]
  | @inList expr negated values used not list word open' far written marked closed =>
    simp only [length_append,length_cons] at short ih
    rw [append_assoc,append_assoc]
    refine (ih _ (by omega) rfl written (by omega) high ?_ (negatedApart marked)).turn ((inTurns marked).trans ?_)
      (by simp only [append_eq,cons_append,length_append,length_cons]; omega)
    · exact lt_of_eq_of_lt (negatedLevel marked rfl) far
    simp [inTurn,closedOpens closed,reads.arguments closed (by omega)]
  | @between expr first last negated used not before after word and far less tight tight' written marked second third =>
    simp only [length_append,length_cons] at short ih
    simp only [reach,Nat.lt_min] at low
    rw [append_assoc,append_assoc]
    refine (ih _ (by omega) rfl written (by omega) high ?_ (negatedApart marked)).turn
      ((betweenTurns marked).trans ?_)
      (by simp only [append_eq,length_append,length_cons]; omega)
    · exact lt_of_eq_of_lt (negatedLevel marked rfl) far
    have lower : P.expr .compare (before ++ ⟨.keyword .and,and⟩ :: (after ++ rest)) = .ok (first,_) :=
      reads.expr second (by omega) tight (Nat.lt_succ_self 2) less ⟨rfl,rfl⟩
    have upper := reads.expr third (by omega) tight' low.1 low.2 apart
    simp [betweenTurn,lower,upper]
  | @paren expr used open' close written =>
    simp only [length_append,length_cons,length_nil] at short
    obtain ⟨noSelect,noWith,_⟩ := opensNone (writtenOpens (⟨.punct .rParen,close⟩ :: rest) written)
    have inner : parseExpr P (used ++ ⟨.punct .rParen,close⟩ :: rest) = .ok (expr,_) :=
      reads.whole written (by omega) rfl ⟨rfl,rfl⟩
    refine .start ?_
    simp [parsePrefix,parseGroup,noSelect,noWith,inner]

end

theorem writtenPositive (written : WrittenExpr expr used) : 0 < used.length := by
  cases written <;> simp only [length_append,length_cons,length_nil] <;> omega

theorem parsersRead : ∀ depth, ReadsUpTo (parsers depth) depth
  | 0 => ⟨fun written short => absurd (writtenPositive written) (by omega)⟩
  | depth+1 =>
      ⟨fun written short _ _ high low far apart =>
        (writtenReaches (parsersRead depth) written short high far apart).ends low⟩

end NoeDB.Parser
