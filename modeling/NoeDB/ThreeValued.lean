import NoeDB.Fallible
import NoeDB.SqlEval

/-! Predicates over columns and literals as eval.rs (noedb-planner) evaluates them, against
their value in Kleene's logic, where a comparison with a null is unknown. -/
namespace NoeDB.ThreeValued
open SqlAst SqlValue SqlEval Platform Fallible List

inductive Operand where
  | column (ref : ColumnRef)
  | literal (value : Literal)

def Operand.expr : Operand → Expr
  | column ref => .column ref
  | literal value => .literal value

inductive Predicate where
  | compare (op : BinaryOp) (ordered : op ∈ [.lt,.le,.gt,.ge]) (left right : Operand)
  | like (text pattern : Operand)
  | between (value low high : Operand) (negated : Bool)
  | member (value : Operand) (values : List Operand) (negated : Bool)
  | and (left right : Predicate)
  | or (left right : Predicate)
  | not (inner : Predicate)
  | paren (inner : Predicate)

namespace Predicate

def expr : Predicate → Expr
  | compare op _ left right => .binary op left.expr right.expr
  | like text pattern => .binary .like text.expr pattern.expr
  | between value low high negated => .between value.expr low.expr high.expr negated
  | member value values negated => .inList value.expr (values.map Operand.expr) negated
  | and left right => .binary .and left.expr right.expr
  | or left right => .binary .or left.expr right.expr
  | not inner => .unary .not inner.expr
  | paren inner => .paren inner.expr

def operands : Predicate → List Operand
  | compare _ _ left right => [left,right]
  | like text pattern => [text,pattern]
  | between value low high _ => [value,low,high]
  | member value values _ => value :: values
  | and left right => left.operands ++ right.operands
  | or left right => left.operands ++ right.operands
  | not inner => inner.operands
  | paren inner => inner.operands

end Predicate

section

def both : Option Bool → Option Bool → Option Bool
  | some true,k => k
  | some false,_ => some false
  | none,k => if k = some false then some false else none

def either : Option Bool → Option Bool → Option Bool
  | some false,k => k
  | some true,_ => some true
  | none,k => if k = some true then some true else none

def negate (negated : Bool) (k : Option Bool) : Option Bool := if negated then k.map not else k

def truth : Option Bool → Value
  | some b => .bool b
  | none => .null

variable [Runtime] (row : Row)

def known (o : Operand) : Option Value := (evalExpr o.expr row).toOption.filter (· ≠ .null)

def ordered (op : BinaryOp) (left right : Operand) : Option Bool := do
  let v ← known row left
  let w ← known row right
  (cmpValues v w op).toOption

def equal (left right : Operand) : Option Bool := do
  let v ← known row left
  let w ← known row right
  some (v.sqlEq w = some true)

def kleene : Predicate → Option Bool
  | .compare op _ left right => ordered row op left right
  | .like text pattern => do
      let v ← known row text
      let w ← known row pattern
      some (likeMatch v w)
  | .between value low high negated => negate negated (both (ordered row .ge value low) (ordered row .le value high))
  | .member value values negated => negate negated (values.foldr (fun o k => either (equal row value o) k) (some false))
  | .and left right => both (kleene left) (kleene right)
  | .or left right => either (kleene left) (kleene right)
  | .not inner => (kleene inner).map not
  | .paren inner => kleene inner

def Faithful (p : Predicate) : Prop :=
  ∀ v, evalExpr p.expr row = .ok v → v = truth (kleene row p) ∧
    evalPredicate p.expr row = .ok (decide (kleene row p = some true)) ∧
    evalPredicate (.unary .not p.expr) row = .ok (decide (kleene row p = some false))

end

section
variable [Runtime] {row : Row}

def Present (row : Row) (o : Operand) : Prop := evalExpr o.expr row ≠ .ok .null

theorem knownOk (present : Present row o) (found : evalExpr o.expr row = .ok v) :
    v ≠ .null ∧ known row o = some v := by
  have filled : v ≠ .null := fun same => present (same ▸ found)
  exact ⟨filled,by simp [known,found,Except.toOption,filled]⟩

theorem cmpKnown (present : Present row left) (other : Present row right)
    (first : evalExpr left.expr row = .ok v) (second : evalExpr right.expr row = .ok w)
    (compared : cmpValues v w op = .ok b) : ordered row op left right = some b := by
  simp [ordered,(knownOk present first).2,(knownOk other second).2,compared,Except.toOption]

theorem memberKnown (present : ∀ o ∈ value :: values, Present row o)
    (first : evalExpr value.expr row = .ok v) (done : evalMember v (values.map Operand.expr) row = .ok b) :
    values.foldr (fun o k => either (equal row value o) k) (some false) = some b := by
  obtain ⟨here,others⟩ := forall_mem_cons.mp present
  induction values with
  | nil => cases done; rfl
  | cons o _ ih =>
    obtain ⟨own,later⟩ := forall_mem_cons.mp others
    obtain ⟨w,found,decided⟩ := boundOk done
    have compared : equal row value o = some (decide (v.sqlEq w = some true)) := by
      simp [equal,(knownOk here first).2,(knownOk own found).2]
    rw [foldr_cons,compared]
    split at decided
    · rename_i same
      cases decided
      simp [same,either]
    · rename_i other
      simp only [other,decide_false,either]
      exact ih (forall_mem_cons.mpr ⟨here,later⟩) decided later

theorem evaluated (present : ∀ o ∈ p.operands, Present row o) (done : evalExpr p.expr row = .ok v) :
    ∃ b, v = .bool b ∧ kleene row p = some b := by
  induction p generalizing v with
  | compare op among left right =>
    obtain ⟨one,two⟩ : Present row left ∧ Present row right := by simpa [Predicate.operands] using present
    have strict : (evalExpr left.expr row).bind (fun l => (evalExpr right.expr row).bind fun r =>
        (cmpValues l r op).map .bool) = .ok v := by
      simp only [mem_cons,not_mem_nil,or_false] at among
      rcases among with rfl | rfl | rfl | rfl <;> exact done
    obtain ⟨l,first,rest⟩ := boundOk strict
    obtain ⟨r,second,compared⟩ := boundOk rest
    cases found : cmpValues l r op with
    | error => simp [found,Except.map] at compared
    | ok b =>
      simp only [found,Except.map,Except.ok.injEq] at compared
      exact ⟨b,compared.symm,cmpKnown one two first second found⟩
  | like text pattern =>
    obtain ⟨one,two⟩ : Present row text ∧ Present row pattern := by simpa [Predicate.operands] using present
    obtain ⟨l,first,rest⟩ := boundOk done
    obtain ⟨r,second,matched⟩ := boundOk rest
    cases Except.ok.inj matched
    exact ⟨_,rfl,by simp [kleene,(knownOk one first).2,(knownOk two second).2]⟩
  | between value low high negated =>
    obtain ⟨one,two,three⟩ : Present row value ∧ Present row low ∧ Present row high := by
      simpa [Predicate.operands] using present
    obtain ⟨x,first,rest⟩ := boundOk done
    obtain ⟨_,second,rest⟩ := boundOk rest
    obtain ⟨_,third,compared⟩ := boundOk rest
    rw [betweenValues,if_neg (by simp [(knownOk one first).1,(knownOk two second).1,(knownOk three third).1])] at compared
    obtain ⟨ge,above,rest⟩ := boundOk compared
    obtain ⟨le,below,result⟩ := boundOk rest
    cases Except.ok.inj result
    refine ⟨_,rfl,?_⟩
    rw [kleene,cmpKnown one two first second above,cmpKnown one three first third below]
    cases ge <;> cases le <;> cases negated <;> rfl
  | member _ _ negated =>
    obtain ⟨x,first,rest⟩ := boundOk done
    obtain ⟨found,listed,result⟩ := boundOk rest
    cases Except.ok.inj result
    refine ⟨_,rfl,?_⟩
    rw [kleene,memberKnown present first listed]
    cases found <;> cases negated <;> rfl
  | and _ _ first second =>
    obtain ⟨one,two⟩ := forall_mem_append.mp present
    obtain ⟨l,ran,rest⟩ := boundOk done
    obtain ⟨b,rfl,value⟩ := first one ran
    cases b with
    | false => exact ⟨false,(Except.ok.inj rest).symm,by rw [kleene,value,both]⟩
    | true =>
      obtain ⟨c,same,other⟩ := second two rest
      exact ⟨c,same,by rw [kleene,value,both,other]⟩
  | or _ _ first second =>
    obtain ⟨one,two⟩ := forall_mem_append.mp present
    obtain ⟨l,ran,rest⟩ := boundOk done
    obtain ⟨b,rfl,value⟩ := first one ran
    cases b with
    | true => exact ⟨true,(Except.ok.inj rest).symm,by rw [kleene,value,either]⟩
    | false =>
      obtain ⟨c,same,other⟩ := second two rest
      exact ⟨c,same,by rw [kleene,value,either,other]⟩
  | not _ ih =>
    obtain ⟨x,ran,rest⟩ := boundOk done
    obtain ⟨b,rfl,value⟩ := ih present ran
    exact ⟨!b,(Except.ok.inj rest).symm,by rw [kleene,value,Option.map_some]⟩
  | paren _ ih => exact ih present (by simpa only [Predicate.expr,evalExpr] using done)

end

end NoeDB.ThreeValued
