import NoeDB.WrittenReads

/-! Trees of operators and predicates, written with the parentheses that the levels
OR, AND, NOT, comparisons and predicates, sums, products and unary minus require, and
what the parser makes of them. -/
namespace NoeDB.Precedence
open Lexer SqlAst NoeDB.Parser List Nat

inductive Atom where
  | column (table : Option String) (name : String)
  | null
  | integer (value : Int64)
  | string (value : String)
  | boolean (value : Bool)

inductive Tree where
  | atom (value : Atom)
  | binary (op : BinaryOp) (left right : Tree)
  | not (expr : Tree)
  | negate (expr : Tree)
  | isNull (expr : Tree) (negated : Bool)
  | between (expr low high : Tree) (negated : Bool)
  | inList (expr : Tree) (values : List Tree) (negated : Bool)

/- The vector distance stands among the comparisons, as in the parser. -/
def opRank : BinaryOp → Nat
  | .or => 1
  | .and => 2
  | .eq | .ne | .lt | .gt | .le | .ge | .distance | .like => 4
  | .plus | .minus => 5
  | .mul | .div | .mod => 6

/- Equal levels associate to the left, except that a comparison or predicate is no
operand of another. -/
def leftMin (op : BinaryOp) : Nat := if opRank op = 4 then 5 else opRank op
def rightMin (op : BinaryOp) : Nat := opRank op+1

namespace Tree

def rank : Tree → Nat
  | .binary op _ _ => opRank op
  | .not _ => 3
  | .isNull _ _ | .between _ _ _ _ | .inList _ _ _ => 4
  | .negate _ => 7
  | .atom _ => 8

end Tree

def Atom.expr : Atom → Expr
  | .column table name => .column (.named table name)
  | .null => .literal .null
  | .integer value => .literal (.integer value)
  | .string value => .literal (.string value)
  | .boolean value => .literal (.boolean value)

structure Spelling where
  name : String → Tok
  named : ∀ value, Named value (name value)
  text : Token → String

def Spelling.fixed (s : Spelling) (kind : Token) : Tok := ⟨kind,s.text kind⟩

def Atom.write (s : Spelling) : Atom → Tokens
  | .column none name => [s.name name]
  | .column (some table) name => [s.name table,s.fixed (.punct .dot),s.name name]
  | .null => [s.fixed (.keyword .null)]
  | .integer value => [s.fixed (.integer value)]
  | .string value => [s.fixed (.string value)]
  | .boolean value => [s.fixed (.keyword (if value then .true else .false))]

def opToken : BinaryOp → Token
  | .or => .keyword .or
  | .and => .keyword .and
  | .like => .keyword .like
  | .mul => .punct .star
  | .eq => .op .eq
  | .ne => .op .ne
  | .lt => .op .lt
  | .gt => .op .gt
  | .le => .op .le
  | .ge => .op .ge
  | .distance => .op .distance
  | .plus => .op .plus
  | .minus => .op .minus
  | .div => .op .div
  | .mod => .op .mod

def enclose (s : Spelling) (k : Nat) (t : Tree) (toks : Tokens) : Tokens :=
  if t.rank < k then s.fixed (.punct .lParen) :: (toks ++ [s.fixed (.punct .rParen)]) else toks

def negation (s : Spelling) (negated : Bool) : Tokens := if negated then [s.fixed (.keyword .not)] else []

mutual

def Tree.write (s : Spelling) : Tree → Tokens
  | .atom value => value.write s
  | .binary op left right =>
      enclose s (leftMin op) left (left.write s) ++
        s.fixed (opToken op) :: enclose s (rightMin op) right (right.write s)
  | .not expr => s.fixed (.keyword .not) :: enclose s 3 expr (expr.write s)
  | .negate expr => s.fixed (.op .minus) :: enclose s 7 expr (expr.write s)
  | .isNull expr negated =>
      enclose s 5 expr (expr.write s) ++
        s.fixed (.keyword .is) :: (negation s negated ++ [s.fixed (.keyword .null)])
  | .between expr low high negated =>
      enclose s 5 expr (expr.write s) ++ (negation s negated ++
        s.fixed (.keyword .between) :: (enclose s 5 low (low.write s) ++
          s.fixed (.keyword .and) :: enclose s 5 high (high.write s)))
  | .inList expr values negated =>
      enclose s 5 expr (expr.write s) ++ (negation s negated ++
        s.fixed (.keyword .in') :: s.fixed (.punct .lParen) :: (writeList s values ++ [s.fixed (.punct .rParen)]))

def writeList (s : Spelling) : List Tree → Tokens
  | [] => []
  | [t] => t.write s
  | t :: next :: rest => t.write s ++ s.fixed (.punct .comma) :: writeList s (next :: rest)

end

mutual

def Tree.expr : Tree → Expr
  | .atom value => value.expr
  | .binary op left right => .binary op left.expr right.expr
  | .not expr => .unary .not expr.expr
  | .negate expr => .unary .minus expr.expr
  | .isNull expr negated => .isNull expr.expr negated
  | .between expr low high negated => .between expr.expr low.expr high.expr negated
  | .inList expr values negated => .inList expr.expr (exprList values) negated

def exprList : List Tree → List Expr
  | [] => []
  | t :: rest => t.expr :: exprList rest

end

def bracket (k : Nat) (t : Tree) (expr : Expr) : Expr := if t.rank < k then .paren expr else expr

/- An operator of level `k` after an expression goes to the last operand in it that does
not take the operator over. -/
def attach (k : Nat) (make : Expr → Expr) : Expr → Expr
  | .binary op left right =>
      if k < reach (.binary op left right) then make (.binary op left right) else .binary op left (attach k make right)
  | .unary op expr => if k < reach (.unary op expr) then make (.unary op expr) else .unary op (attach k make expr)
  | .between expr low high negated =>
      if k < reach (.between expr low high negated) then make (.between expr low high negated)
      else .between expr low (attach k make high) negated
  | expr => make expr

mutual

def Tree.regrouped : Tree → Expr
  | .atom value => value.expr
  | .binary op left right =>
      attach (opLevel op) (.binary op · (bracket (rightMin op) right right.regrouped))
        (bracket (leftMin op) left left.regrouped)
  | .not expr => .unary .not (bracket 3 expr expr.regrouped)
  | .negate expr => .unary .minus (bracket 7 expr expr.regrouped)
  | .isNull expr negated => attach 4 (.isNull · negated) (bracket 5 expr expr.regrouped)
  | .between expr low high negated =>
      attach 4 (.between · (bracket 5 low low.regrouped) (bracket 5 high high.regrouped) negated)
        (bracket 5 expr expr.regrouped)
  | .inList expr values negated => attach 4 (.inList · (regroupedList values) negated) (bracket 5 expr expr.regrouped)

def regroupedList : List Tree → List Expr
  | [] => []
  | t :: rest => t.regrouped :: regroupedList rest

end

def simple (k : Nat) (t : Tree) : Bool := t.rank < k || t.rank == 8

def Tree.isNot : Tree → Bool
  | .not _ => true
  | _ => false

def Tree.endsInNot : Tree → Bool
  | .not _ => true
  | .binary .and _ right => right.isNot
  | _ => false

def leftFits : BinaryOp → Tree → Bool
  | .and,left => !left.endsInNot
  | .like,left => simple 5 left
  | .plus,left => simple 5 left
  | .minus,left => simple 5 left
  | .mul,left => simple 6 left
  | .div,left => simple 6 left
  | .mod,left => simple 6 left
  | _,_ => true

mutual

def Tree.readable : Tree → Bool
  | .atom _ => true
  | .binary op left right => leftFits op left && left.readable && right.readable
  | .not expr => expr.readable
  | .negate expr => expr.readable
  | .isNull expr _ => simple 5 expr && expr.readable
  | .between expr low high _ => simple 5 expr && expr.readable && low.readable && high.readable
  | .inList expr values _ => simple 5 expr && expr.readable && readableList values

def readableList : List Tree → Bool
  | [] => true
  | t :: rest => t.readable && readableList rest

end

section

variable (k : Nat) (t : Tree) {expr : Expr}

theorem stripBracket : strip (bracket k t expr) = strip expr := by
  unfold bracket
  split
  · rw [strip]
  · rfl

theorem writtenEnclose (written : WrittenExpr expr toks) : WrittenExpr (bracket k t expr) (enclose s k t toks) := by
  unfold bracket enclose
  split
  · exact .paren _ _ written
  · exact written

omit t in
theorem bracketBare {k t} (high : k ≤ t.rank) : bracket k t expr = expr := if_neg (by omega)

omit t in
theorem bracketInside {k t} (low : t.rank < k) : bracket k t expr = .paren expr := if_pos low

theorem bracketBound {f : Expr → Nat} (paren : n ≤ f (.paren expr)) (bare : k ≤ t.rank → n ≤ f expr) :
    n ≤ f (bracket k t expr) := by
  unfold bracket
  split
  · exact paren
  · exact bare (by omega)

end

theorem reachBound (expr) : reach expr ≤ 5 := by
  cases expr with
  | binary op =>
    have := (rankBound (rightPrec op)).2
    simp only [reach]
    omega
  | unary op =>
    have := (rankBound (unaryPrec op)).2
    simp only [reach]
    omega
  | between => simp only [reach,rankCompare]; omega
  | _ => simp [reach]

def words : Expr → Nat
  | .binary _ left right => words left+words right+1
  | .unary _ expr | .isNull expr _ | .inList expr _ _ => words expr+1
  | .between expr low high _ => words expr+words low+words high+1
  | .paren inner => words inner
  | _ => 1

theorem wordsStrip : ∀ expr : Expr, words (strip expr) = words expr
  | .binary _ left right => by simp [strip,words,wordsStrip left,wordsStrip right]
  | .unary _ expr | .isNull expr _ | .inList expr _ _ => by simp [strip,words,wordsStrip expr]
  | .between expr low high _ => by simp [strip,words,wordsStrip expr,wordsStrip low,wordsStrip high]
  | .paren inner => by simp [strip,words,wordsStrip inner]
  | .literal _ | .column _ | .inSubquery _ _ _ | .existsQuery _ _ | .scalarSubquery _ | .parameter _
  | .currentUser | .cast _ _ | .function _ _ _ => by simp [strip]

theorem wordsBracket (k t expr) : words (bracket k t expr) = words expr := by
  rw [← wordsStrip,stripBracket,wordsStrip]

def leading : Expr → Option Expr
  | .binary _ left _ => some left
  | .isNull expr _ | .inList expr _ _ | .between expr _ _ _ => some expr
  | _ => none

section

variable {k : Nat} {make : Expr → Expr}

theorem attachStays (far : k < reach expr) : attach k make expr = make expr := by
  cases expr <;> simp [attach,far]

theorem attachRule {R : Expr → Expr → Prop} (low : k ≤ 4) (here : ∀ expr, k < reach expr → R expr (make expr))
    (binary : ∀ op left right, reach (.binary op left right) ≤ k → R right (attach k make right) →
      R (.binary op left right) (.binary op left (attach k make right)))
    (unary : ∀ op expr, reach (.unary op expr) ≤ k → R expr (attach k make expr) →
      R (.unary op expr) (.unary op (attach k make expr)))
    (between : ∀ expr first last negated, reach (.between expr first last negated) ≤ k → R last (attach k make last) →
      R (.between expr first last negated) (.between expr first (attach k make last) negated)) :
    ∀ expr, R expr (attach k make expr)
  | .binary op left right => by
      by_cases far : k < reach (.binary op left right)
      · rw [attachStays far]
        exact here _ far
      · rw [attach,if_neg far]
        exact binary op left right (by omega) (attachRule low here binary unary between right)
  | .unary op expr => by
      by_cases far : k < reach (.unary op expr)
      · rw [attachStays far]
        exact here _ far
      · rw [attach,if_neg far]
        exact unary op expr (by omega) (attachRule low here binary unary between expr)
  | .between expr first last negated => by
      by_cases far : k < reach (.between expr first last negated)
      · rw [attachStays far]
        exact here _ far
      · rw [attach,if_neg far]
        exact between expr first last negated (by omega) (attachRule low here binary unary between last)
  | .literal _ | .column _ | .isNull _ _ | .inList _ _ _ | .inSubquery _ _ _ | .existsQuery _ _
  | .scalarSubquery _ | .paren _ | .parameter _ | .currentUser | .cast _ _ | .function _ _ _ => by
      exact here _ (lt_succ_of_le low)

variable (low : k ≤ 4)
include low

theorem attachWords (made : ∀ expr, words (make expr) = words expr+n) (expr) :
    words (attach k make expr) = words expr+n := by
  refine attachRule (R := fun expr next => words next = words expr+n) low (fun expr _ => made expr) ?_ ?_ ?_ expr
  all_goals
    intros
    simp only [words]
    omega

theorem attachTightness (made : n ≤ k → n ≤ tightness expr → n ≤ tightness (make expr))
    (caught : min n (reach expr) ≤ k) (tight : n ≤ tightness expr) : n ≤ tightness (attach k make expr) := by
  by_cases far : k < reach expr
  · rw [attachStays far]
    exact made (by omega) tight
  · cases expr with
    | binary | unary | between =>
      rw [attach,if_neg far]
      exact tight
    | _ => exact absurd (lt_succ_of_le low) far

theorem attachReach (made : ∀ expr, n ≤ reach (make expr)) (expr) :
    n ≤ reach expr → n ≤ reach (attach k make expr) := by
  refine attachRule (R := fun expr next => n ≤ reach expr → n ≤ reach next) low (fun expr _ _ => made expr) ?_ ?_ ?_ expr
  all_goals
    intros
    simp only [reach,Nat.le_min] at *
    tauto

theorem attachBound (made : ∀ expr, reach (make expr) ≤ 4) (expr) : reach (attach k make expr) ≤ 4 := by
  refine attachRule (R := fun _ next => reach next ≤ 4) low (fun expr _ => made expr) ?_ ?_ ?_ expr
  · exact fun op _ _ _ _ => (min_le_left _ _).trans (rankBound _).2
  · exact fun op _ _ _ => (min_le_left _ _).trans (rankBound _).2
  · exact fun _ _ _ _ _ _ => (min_le_left _ _).trans (by decide)

theorem attachIff (begins : leading whole = some x) (equal : words x = words expr) :
    strip (attach k make expr) = whole ↔ k < reach expr ∧ strip (make expr) = whole := by
  constructor
  · intro same
    by_cases far : k < reach expr
    · rw [attachStays far] at same
      exact ⟨far,same⟩
    · subst same
      cases expr with
      | binary | between =>
        rw [attach,if_neg far,strip] at begins
        cases begins
        simp only [wordsStrip,words] at equal
        omega
      | unary =>
        rw [attach,if_neg far,strip] at begins
        cases begins
      | _ => exact absurd (lt_succ_of_le low) far
  · rintro ⟨far,_⟩
    rwa [attachStays far]

theorem attachWritten (made : ∀ expr used, k < reach expr → WrittenExpr expr used →
      WrittenExpr (make expr) (used ++ suffix))
    (tight : ∀ {n expr}, n ≤ k → n ≤ tightness expr → n ≤ tightness (make expr)) (expr) :
    ∀ used, WrittenExpr expr used → WrittenExpr (attach k make expr) (used ++ suffix) := by
  refine attachRule (R := fun expr next => ∀ used, WrittenExpr expr used → WrittenExpr next (used ++ suffix)) low
    (fun expr far used => made expr used far) ?_ ?_ ?_ expr
  · intro op _ _ caught ih used written
    cases written with
    | binary token far close first second =>
      rw [append_assoc,cons_append]
      exact .binary token far (attachTightness low tight caught close) first (ih _ second)
  · intro _ expr caught ih used written
    cases written with
    | not text close written => exact .not text (attachTightness low tight caught close) (ih _ written)
    | minus text close written => exact .minus text (attachTightness low tight caught close) (ih _ written)
  · intro _ _ _ _ caught ih _ written
    cases written with
    | between word and far far' close close' written marked second third =>
      simp only [append_assoc,cons_append]
      exact .between word and far far' close (attachTightness low tight caught close') written marked second (ih _ third)

end

theorem opLevelFits (op) : (2 ≤ opRank op → 2 ≤ opLevel op) ∧ (3 ≤ opRank op → 3 ≤ opLevel op) ∧
    (5 ≤ opRank op → 4 ≤ opLevel op) ∧ opRank op ≤ leftMin op ∧ (4 ≤ opRank op → 5 ≤ leftMin op) ∧
    (rightPrec op).rank ≤ 4 ∧ rightMin op = opRank op+1 := by
  cases op <;> decide

theorem opLevelLow (op) : opLevel op ≤ 4 := by
  cases op <;> decide

theorem binaryTightness (high : n ≤ opLevel op) (tight : n ≤ tightness expr) :
    n ≤ tightness (.binary op expr right) :=
  Nat.le_min.mpr ⟨high,tight⟩

theorem tightnessRegrouped : ∀ t : Tree, (2 ≤ t.rank → 2 ≤ tightness t.regrouped) ∧
    (3 ≤ t.rank → 3 ≤ tightness t.regrouped) ∧ (5 ≤ t.rank → 4 ≤ tightness t.regrouped)
  | .atom value => by cases value <;> simp [Tree.regrouped,Atom.expr,tightness]
  | .not _ | .negate _ => by simp [Tree.regrouped,tightness]
  | .binary op left right => by
      obtain ⟨two,three,four⟩ := tightnessRegrouped left
      obtain ⟨two',three',four',min,_⟩ := opLevelFits op
      have atLeast {n : Nat} {m : Nat} (le : n ≤ 5) (bare : m ≤ left.rank → n ≤ tightness left.regrouped)
          (high : m ≤ leftMin op) (level : n ≤ opLevel op) : n ≤ tightness (.binary op left right : Tree).regrouped :=
        attachTightness (opLevelLow op) binaryTightness ((min_le_left _ _).trans level)
          (bracketBound _ _ le fun above => bare (high.trans above))
      simp only [Tree.rank]
      exact ⟨fun high => atLeast (by decide) two (high.trans min) (two' high),
        fun high => atLeast (by decide) three (high.trans min) (three' high),
        fun high => atLeast (by decide) four (high.trans min) (four' high)⟩
  | .isNull expr _ | .between expr _ _ _ | .inList expr _ _ => by
      obtain ⟨_,_,four⟩ := tightnessRegrouped expr
      have high : 4 ≤ tightness (bracket 5 expr expr.regrouped) := bracketBound _ _ (by simp [tightness]) four
      refine (fun kept : 4 ≤ tightness _ =>
        ⟨fun _ => le_trans (by decide) kept,fun _ => le_trans (by decide) kept,fun _ => kept⟩) ?_
      exact attachTightness (le_refl 4) (fun _ tight => tight) (min_le_left _ _) high

theorem tightnessBracket {k n : Nat} (t) (le : n ≤ 4) (high : n = 1 ∨ n = 2 ∧ 2 ≤ k ∨ n = 3 ∧ 3 ≤ k ∨ 5 ≤ k) :
    n ≤ tightness (bracket k t t.regrouped) := by
  obtain ⟨_,_⟩ := tightnessRegrouped t
  have := tightnessPositive t.regrouped
  refine bracketBound _ _ (by simp only [tightness]; omega) fun above => ?_
  omega

theorem reachRegrouped : ∀ t : Tree, (4 ≤ t.rank → 3 ≤ reach t.regrouped) ∧ (5 ≤ t.rank → 4 ≤ reach t.regrouped) ∧
    (5 ≤ t.rank → (reach t.regrouped = 5 ↔ t.rank = 8))
  | .atom value => by cases value <;> simp [Tree.regrouped,Atom.expr,reach,Tree.rank]
  | .not expr => by simp [Tree.rank]
  | .negate expr => by
      obtain ⟨_,four,_⟩ := reachRegrouped expr
      have high : 4 ≤ reach (bracket 7 expr expr.regrouped) :=
        bracketBound _ _ (by simp [reach]) fun above => four (by omega)
      simp only [Tree.rank,Tree.regrouped,reach,unaryPrec,rankAdd]
      omega
  | .binary op left right => by
      obtain ⟨_,four,_⟩ := reachRegrouped left
      obtain ⟨_,four',_⟩ := reachRegrouped right
      have three : 4 ≤ opRank op → 3 ≤ (rightPrec op).rank := by cases op <;> decide
      have add : 5 ≤ opRank op → (rightPrec op).rank = 4 := by cases op <;> decide
      obtain ⟨_,_,_,_,five,_⟩ := opLevelFits op
      have bound : opRank op ≤ 6 := by cases op <;> decide
      have before (high : 4 ≤ opRank op) : 4 ≤ reach (bracket (leftMin op) left left.regrouped) :=
        bracketBound _ _ (by simp [reach]) fun above => four ((five high).trans above)
      have after (high : 4 ≤ opRank op) : 4 ≤ reach (bracket (rightMin op) right right.regrouped) :=
        bracketBound _ _ (by simp [reach]) fun above => four' (by unfold rightMin at above; omega)
      have kept {n : Nat} (high : 4 ≤ opRank op) (le : n ≤ (rightPrec op).rank) :
          n ≤ reach (.binary op left right : Tree).regrouped :=
        have less := le.trans (rankBound _).2
        attachReach (opLevelLow op) (fun _ => Nat.le_min.mpr ⟨le,less.trans (after high)⟩) _ (less.trans (before high))
      have most : reach (.binary op left right : Tree).regrouped ≤ 4 :=
        attachBound (opLevelLow op) (fun _ => (min_le_left _ _).trans (rankBound _).2) _
      simp only [Tree.rank]
      exact ⟨fun high => kept high (three high),fun high => kept (by omega) (add high).ge,by omega⟩
  | .between expr _ last _ => by
      have before : 4 ≤ reach (bracket 5 expr expr.regrouped) :=
        bracketBound _ _ (by simp [reach]) (reachRegrouped expr).2.1
      have after : 4 ≤ reach (bracket 5 last last.regrouped) :=
        bracketBound _ _ (by simp [reach]) (reachRegrouped last).2.1
      simp only [Tree.rank]
      exact ⟨fun _ => attachReach (Nat.le_refl 4) (fun _ => Nat.le_min.mpr ⟨Nat.le_refl 3,Nat.le_of_succ_le after⟩) _
        (Nat.le_of_succ_le before),by omega,by omega⟩
  | .isNull expr _ | .inList expr _ _ => by
      have before : 4 ≤ reach (bracket 5 expr expr.regrouped) :=
        bracketBound _ _ (by simp [reach]) (reachRegrouped expr).2.1
      simp only [Tree.rank]
      exact ⟨fun _ => attachReach (le_refl 4) (fun _ => (by decide : 3 ≤ 5)) _ (le_of_succ_le before),by omega,
        by omega⟩

theorem reachBracket {k : Nat} (t) (high : 5 ≤ k) : 4 ≤ reach (bracket k t t.regrouped) :=
  bracketBound _ _ (by simp [reach]) fun above => (reachRegrouped t).2.1 (by omega)

theorem simpleReach (t) (high : 5 ≤ k) : 4 < reach (bracket k t t.regrouped) ↔ simple k t = true := by
  obtain ⟨_,_⟩ := reachRegrouped t
  unfold bracket simple
  split
  · rename_i less
    simp [reach,less]
  · rename_i less
    have le : reach t.regrouped ≤ 5 := reachBound _
    simp only [less,decide_false,Bool.false_or,beq_iff_eq]
    omega

theorem isNotRank (t : Tree) : t.isNot = true ↔ t.rank = 3 := by
  cases t with
  | binary op => cases op <;> simp [Tree.isNot,Tree.rank,opRank]
  | _ => simp [Tree.isNot,Tree.rank]

theorem isNotReach (t : Tree) : 2 < reach (bracket 3 t t.regrouped) ↔ t.isNot = false := by
  rw [← Bool.not_eq_true,isNotRank]
  rcases lt_trichotomy t.rank 3 with less | same | _
  · rw [bracketInside less]
    simp only [reach]
    omega
  · rw [bracketBare (by omega)]
    obtain ⟨inner,rfl⟩ : ∃ inner, t = .not inner := by
      cases t with
      | not inner => exact ⟨inner,rfl⟩
      | binary op => cases op <;> cases same
      | _ => cases same
    simp only [Tree.regrouped,reach,unaryPrec,rankAnd]
    omega
  · rw [bracketBare (by omega)]
    have := (reachRegrouped t).1 (by omega)
    omega

theorem lateReach {t : Tree} (high : 4 ≤ t.rank) (plain : t.endsInNot = false) :
    2 < reach (bracket 2 t t.regrouped) ↔ t.endsInNot = false := by
  rw [bracketBare (by omega)]
  exact ⟨fun _ => plain,fun _ => (reachRegrouped t).1 high⟩

theorem notReach : ∀ t : Tree, t.readable = true → (2 < reach (bracket 2 t t.regrouped) ↔ t.endsInNot = false)
  | .not expr,_ => by
      rw [bracketBare (by simp [Tree.rank])]
      simp only [Tree.regrouped,reach,unaryPrec,rankAnd,Tree.endsInNot,Bool.true_eq_false,iff_false]
      omega
  | .binary .and left right,read => by
      simp only [Tree.readable,leftFits,Bool.and_eq_true,Bool.not_eq_true'] at read
      have far : opLevel .and < reach (bracket (leftMin .and) left left.regrouped) := (notReach left read.1.2).mpr read.1.1
      rw [bracketBare (by simp [Tree.rank,opRank]),Tree.endsInNot,← isNotReach right,Tree.regrouped,attachStays far]
      simp only [reach,rightPrec,rankCompare,rightMin,opRank,reduceAdd]
      omega
  | .binary .or left right,_ => by
      rw [bracketInside (by simp [Tree.rank,opRank])]
      simp [reach,Tree.endsInNot]
  | .binary .eq _ _,_ | .binary .ne _ _,_ | .binary .lt _ _,_ | .binary .gt _ _,_ | .binary .le _ _,_ | .binary .ge _ _,_
  | .binary .distance _ _,_ | .binary .like _ _,_ | .binary .plus _ _,_ | .binary .minus _ _,_ | .binary .mul _ _,_
  | .binary .div _ _,_ | .binary .mod _ _,_ | .atom _,_ | .negate _,_ | .isNull _ _,_ | .between _ _ _ _,_
  | .inList _ _ _,_ => lateReach (by simp [Tree.rank,opRank]) rfl

theorem leftReach (op) {t : Tree} (read : t.readable = true) :
    opLevel op < reach (bracket (leftMin op) t t.regrouped) ↔ leftFits op t = true := by
  have high := @reachBracket 5 t (by decide)
  have positive := reachPositive (bracket 1 t t.regrouped)
  cases op with
  | or =>
    simp only [opLevel,leftMin,opRank,leftFits,iff_true]
    exact positive
  | and => simpa [opLevel,leftMin,opRank,leftFits] using notReach t read
  | like | plus | minus | mul | div | mod => simpa [opLevel,leftMin,opRank,leftFits] using simpleReach t (by decide)
  | _ =>
    simp only [opLevel,leftMin,opRank,leftFits,iff_true]
    exact high

theorem wordsRegrouped : ∀ t : Tree, words t.regrouped = words t.expr
  | .atom value => rfl
  | .binary op left right => by
      rw [Tree.regrouped,attachWords (opLevelLow op) (n := words right.expr+1)]
      · simp [wordsBracket,wordsRegrouped left,Tree.expr,words,add_assoc]
      · simp [words,wordsBracket,wordsRegrouped right,add_assoc,implies_true]
  | .not expr | .negate expr => by simp [Tree.regrouped,Tree.expr,words,wordsBracket,wordsRegrouped expr]
  | .isNull expr negated | .inList expr _ negated => by
      rw [Tree.regrouped,attachWords (le_refl 4) (fun _ => rfl),wordsBracket,wordsRegrouped expr,Tree.expr,words]
  | .between expr low high negated => by
      rw [Tree.regrouped,attachWords (le_refl 4) (n := words low.expr+words high.expr+1)]
      · simp only [wordsBracket,wordsRegrouped expr,Tree.expr,words]
        omega
      · simp only [words,wordsBracket,wordsRegrouped low,wordsRegrouped high]
        omega

mutual

theorem regroupedIff : ∀ t : Tree, strip t.regrouped = t.expr ↔ t.readable = true
  | .atom value => by cases value <;> simp [Tree.regrouped,Tree.expr,Atom.expr,strip,Tree.readable]
  | .binary op left right => by
      rw [Tree.regrouped,attachIff (opLevelLow op) (x := left.expr) rfl (by rw [wordsBracket,wordsRegrouped])]
      simp only [strip,stripBracket,Tree.expr,Expr.binary.injEq,true_and,regroupedIff left,regroupedIff right,Tree.readable,
        Bool.and_eq_true,and_assoc]
      exact ⟨fun ⟨far,first,second⟩ => ⟨(leftReach op first).mp far,first,second⟩,
        fun ⟨fits,first,second⟩ => ⟨(leftReach op first).mpr fits,first,second⟩⟩
  | .not expr | .negate expr => by
      simp [Tree.regrouped,strip,stripBracket,Tree.expr,Expr.unary.injEq,true_and,regroupedIff expr,Tree.readable]
  | .isNull expr negated => by
      rw [Tree.regrouped,attachIff (le_refl 4) (x := expr.expr) rfl (by rw [wordsBracket,wordsRegrouped])]
      simp [strip,stripBracket,Tree.expr,Expr.isNull.injEq,and_true,simpleReach expr (le_refl 5),regroupedIff expr,        Tree.readable,Bool.and_eq_true]
  | .between expr low high negated => by
      rw [Tree.regrouped,attachIff (le_refl 4) (x := expr.expr) rfl (by rw [wordsBracket,wordsRegrouped])]
      simp [strip,stripBracket,Tree.expr,Expr.between.injEq,and_true,simpleReach expr (le_refl 5),regroupedIff expr,        regroupedIff low,regroupedIff high,Tree.readable,Bool.and_eq_true,and_assoc]
  | .inList expr values negated => by
      rw [Tree.regrouped,attachIff (le_refl 4) (x := expr.expr) rfl (by rw [wordsBracket,wordsRegrouped])]
      simp [strip,stripBracket,Tree.expr,Expr.inList.injEq,and_true,simpleReach expr (le_refl 5),regroupedIff expr,        regroupedListIff values,Tree.readable,Bool.and_eq_true,and_assoc]

theorem regroupedListIff : ∀ values : List Tree, stripList (regroupedList values) = exprList values ↔ readableList values = true
  | [] => by simp [regroupedList,stripList,exprList,readableList]
  | t :: rest => by
      simp [regroupedList,stripList,exprList,cons.injEq,regroupedIff t,regroupedListIff rest,readableList,Bool.and_eq_true]

end

theorem negationMarked (s negated) : Marked .not negated (negation s negated) := by
  cases negated with
  | false => exact .absent
  | true => exact .present _

theorem opTokenBinary (s : Spelling) (op) : BinaryTok op (s.fixed (opToken op)) := by
  cases op with
  | or => exact .or _
  | and => exact .and _
  | like => exact .like _
  | mul => exact .star _
  | eq => exact .op .eq _
  | ne => exact .op .ne _
  | lt => exact .op .lt _
  | gt => exact .op .gt _
  | le => exact .op .le _
  | ge => exact .op .ge _
  | distance => exact .op .distance _
  | plus => exact .op .plus _
  | minus => exact .op .minus _
  | div => exact .op .div _
  | mod => exact .op .mod _

mutual

theorem writtenRegrouped (s : Spelling) : ∀ t : Tree, WrittenExpr t.regrouped (t.write s)
  | .atom value => by
      cases value with
      | column table name =>
        cases table with
        | none => exact .column (s.named name)
        | some table => exact .qualified _ (s.named table) (s.named name)
      | null => exact .literal (.null _)
      | integer value => exact .literal (.integer value _)
      | string value => exact .literal (.string value _)
      | boolean value => cases value <;> exact .literal (by constructor)
  | .binary op left right =>
      attachWritten (opLevelLow op)
        (fun _ _ far before => .binary (opTokenBinary s op) far (tightnessBracket right (rankBound _).2 (by cases op <;> decide)) before
          (writtenEnclose _ right (writtenRegrouped s right)))
        binaryTightness _ _ (writtenEnclose _ left (writtenRegrouped s left))
  | .not expr => .not _ (tightnessBracket expr (by decide) (by decide)) (writtenEnclose 3 expr (writtenRegrouped s expr))
  | .negate expr => .minus _ (tightnessBracket expr (by decide) (by decide)) (writtenEnclose 7 expr (writtenRegrouped s expr))
  | .isNull expr negated =>
      attachWritten (le_refl 4) (fun _ _ far before => .isNull _ _ far before (negationMarked s negated))
        (fun _ tight => tight) _ _ (writtenEnclose 5 expr (writtenRegrouped s expr))
  | .between expr low high negated =>
      attachWritten (le_refl 4)
        (fun _ _ far before => .between _ _ far (lt_of_lt_of_le (by decide) (reachBracket low (le_refl 5)))
          (tightnessBracket low (by decide) (by decide)) (tightnessBracket high (by decide) (by decide)) before
          (negationMarked s negated) (writtenEnclose 5 low (writtenRegrouped s low))
          (writtenEnclose 5 high (writtenRegrouped s high)))
        (fun _ tight => tight) _ _ (writtenEnclose 5 expr (writtenRegrouped s expr))
  | .inList expr values negated =>
      attachWritten (le_refl 4) (fun _ _ far before => .inList _ _ far before (negationMarked s negated) (by
          cases values with
          | nil => exact .nil _
          | cons t rest => exact .some _ (writtenRegroupedList s (t :: rest) (by simp))))
        (fun _ tight => tight) _ _ (writtenEnclose 5 expr (writtenRegrouped s expr))

theorem writtenRegroupedList (s) : ∀ values : List Tree, values ≠ [] →
    Separated WrittenExpr (regroupedList values) (writeList s values)
  | [],filled => absurd rfl filled
  | [t],_ => .one (writtenRegrouped s t)
  | t :: next :: rest,_ => .more _ (writtenRegrouped s t) (writtenRegroupedList s (next :: rest) (by simp))

end

theorem readsBackIff (s : Spelling) (t : Tree) {depth : Nat} (enough : (t.write s).length ≤ depth) {rest : Tokens}
    (ends : level rest = 0) (apart : Apart rest) :
    (∃ expr, parseExpr (parsers depth) (t.write s ++ rest) = .ok (expr,rest) ∧ strip expr = t.expr) ↔
      t.readable = true := by
  have read : parseExpr (parsers depth) (t.write s ++ rest) = .ok (t.regrouped,rest) :=
    (parsersRead depth).whole (writtenRegrouped s t) enough ends apart
  rw [← regroupedIff]
  constructor
  · rintro ⟨_,ran,same⟩
    cases read.symm.trans ran
    exact same
  · exact fun same => ⟨t.regrouped,read,same⟩

def plainSpelling : Spelling := ⟨fun value => ⟨.ident,value⟩,.plain,fun _ => ""⟩

/- `a + b * 2 = 1 OR NOT d IS NULL`. -/
def mixedTree : Tree :=
  .binary .or
    (.binary .eq
      (.binary .plus (.atom (.column none "a")) (.binary .mul (.atom (.column none "b")) (.atom (.integer 2))))
      (.atom (.integer 1)))
    (.not (.isNull (.atom (.column none "d")) false))

theorem mixedReadsBack : ∃ expr, parseExpr (parsers 12) (mixedTree.write plainSpelling ++ [⟨.eof,""⟩]) =
    .ok (expr,[⟨.eof,""⟩]) ∧ strip expr = mixedTree.expr :=
  (readsBackIff plainSpelling mixedTree (by decide) rfl ⟨rfl,rfl⟩).mpr rfl

/- `1 - 2 - 3` is read as `1 - (2 - 3)`. -/
def differences : Tree :=
  .binary .minus (.binary .minus (.atom (.integer 1)) (.atom (.integer 2))) (.atom (.integer 3))

theorem differencesRegroup : ¬ ∃ expr, parseExpr (parsers 5) (differences.write plainSpelling ++ [⟨.eof,""⟩]) =
    .ok (expr,[⟨.eof,""⟩]) ∧ strip expr = differences.expr := by
  have read : parseExpr (parsers 5) (differences.write plainSpelling ++ [⟨.eof,""⟩]) =
      .ok (.binary .minus (.literal (.integer 1)) (.binary .minus (.literal (.integer 2)) (.literal (.integer 3))),
        [⟨.eof,""⟩]) := rfl
  rintro ⟨expr,ran,same⟩
  cases read.symm.trans ran
  simp [strip,differences,Tree.expr,Atom.expr] at same

end NoeDB.Precedence
