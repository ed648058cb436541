import NoeDB.KeyedBags
import NoeDB.Plans
import NoeDB.SqlEval
import Mathlib.Data.List.Induction

/-! Moving a WHERE equality into the join below it (noedb-planner: optimize.rs), against the
meaning of logical plans as lists of rows. -/
namespace NoeDB.PushdownPredicates
open SqlAst SqlValue SqlEval Plans Platform List Function

section

/- One level of `pushdown_predicates`; `again` is the call to itself. -/
def pushdownStep (again : LogicalPlan → LogicalPlan) : LogicalPlan → LogicalPlan
  | .filter (.join left right condition leftOuter) predicate =>
      if !leftOuter && (extractEquiJoin predicate).isSome then again (.join (again left) (again right) predicate leftOuter)
      else .filter (.join (again left) (again right) condition leftOuter) predicate
  | .filter input predicate => .filter (again input) predicate
  | .project input items => .project (again input) items
  | .join left right condition leftOuter => .join (again left) (again right) condition leftOuter
  | .aggregate input groupBy aggs => .aggregate (again input) groupBy aggs
  | .sort input keys => .sort (again input) keys
  | .limit input limit offset => .limit (again input) limit offset
  | .window input windows => .window (again input) windows
  | .semiJoin left right leftKey rightKey corrOn negated =>
      .semiJoin (again left) (again right) leftKey rightKey corrOn negated
  | .setOp left right op all => .setOp (again left) (again right) op all
  | .distinct input => .distinct (again input)
  | .subqueryScan input aliasName => .subqueryScan (again input) aliasName
  | .cteScan name qualifier => .cteScan name qualifier
  | .scan table qualifier => .scan table qualifier

def size : LogicalPlan → Nat
  | .scan _ _ => 1
  | .cteScan _ _ => 1
  | .filter input _ => size input+1
  | .project input _ => size input+1
  | .aggregate input _ _ => size input+1
  | .sort input _ => size input+1
  | .limit input _ _ => size input+1
  | .window input _ => size input+1
  | .distinct input => size input+1
  | .subqueryScan input _ => size input+1
  | .join left right _ _ => size left+size right+1
  | .setOp left right _ _ => size left+size right+1
  | .semiJoin left right _ _ _ _ => size left+size right+1

def pushdownWith : Nat → LogicalPlan → LogicalPlan
  | 0 => id
  | depth+1 => pushdownStep (pushdownWith depth)

def pushdownPredicates (plan : LogicalPlan) : LogicalPlan := pushdownWith (size plan) plan

theorem sizePositive (plan) : 0 < size plan := by
  cases plan <;> simp only [size] <;> omega

theorem stepAgrees (below : ∀ q, size q < size plan → f q = g q ∧ size (f q) ≤ size q) :
    pushdownStep f plan = pushdownStep g plan ∧ size (pushdownStep f plan) ≤ size plan := by
  cases plan with
  | scan | cteScan => exact ⟨rfl,le_refl _⟩
  | filter input predicate =>
    cases input with
    | join left right _ leftOuter =>
      simp only [size] at below
      obtain ⟨sameLeft,smallLeft⟩ := below left (by omega)
      obtain ⟨sameRight,smallRight⟩ := below right (by omega)
      simp only [pushdownStep,size]
      split
      · have small : size (.join (f left) (f right) predicate leftOuter) < size left+size right+1+1 := by
          simp only [size]
          omega
        obtain ⟨same,_⟩ := below _ small
        exact ⟨by rw [same,sameLeft,sameRight],by omega⟩
      · simp only [size]
        exact ⟨by rw [sameLeft,sameRight],by omega⟩
    | _ =>
      obtain ⟨same,small⟩ := below _ (Nat.lt_succ_self _)
      simp only [pushdownStep,size] at same small ⊢
      exact ⟨by rw [same],by omega⟩
  | join left right | setOp left right | semiJoin left right =>
    simp only [size] at below
    obtain ⟨sameLeft,_⟩ := below left (by omega)
    obtain ⟨sameRight,_⟩ := below right (by omega)
    simp only [pushdownStep,size]
    exact ⟨by rw [sameLeft,sameRight],by omega⟩
  | _ =>
    obtain ⟨same,_⟩ := below _ (Nat.lt_succ_self _)
    simp only [pushdownStep,size]
    exact ⟨by rw [same],by omega⟩

theorem pushdownDepth (enough : size plan ≤ n) (enough' : size plan ≤ m) :
    pushdownWith n plan = pushdownWith m plan ∧ size (pushdownWith n plan) ≤ size plan := by
  induction n generalizing m plan with
  | zero => exact absurd (sizePositive plan) (by omega)
  | succ _ ih =>
    cases m with
    | zero => exact absurd (sizePositive plan) (by omega)
    | succ => exact stepAgrees fun q small => ih (by omega) (by omega)

theorem pushdownSize (plan) : size (pushdownPredicates plan) ≤ size plan := (pushdownDepth (le_refl _) (le_refl _)).2

theorem pushdownUnfold (plan) : pushdownPredicates plan = pushdownStep pushdownPredicates plan := by
  have deeper : pushdownPredicates plan = pushdownWith (size plan+1) plan :=
    (pushdownDepth (le_refl _) (Nat.le_succ _)).1
  rw [deeper]
  exact (stepAgrees fun q small => pushdownDepth (by omega) (le_refl _)).1

end
section

def Everywhere (P : LogicalPlan → Prop) : LogicalPlan → Prop
  | .scan table qualifier => P (.scan table qualifier)
  | .cteScan name qualifier => P (.cteScan name qualifier)
  | .filter input predicate => P (.filter input predicate) ∧ Everywhere P input
  | .project input items => P (.project input items) ∧ Everywhere P input
  | .aggregate input groupBy aggs => P (.aggregate input groupBy aggs) ∧ Everywhere P input
  | .sort input keys => P (.sort input keys) ∧ Everywhere P input
  | .limit input limit offset => P (.limit input limit offset) ∧ Everywhere P input
  | .window input windows => P (.window input windows) ∧ Everywhere P input
  | .distinct input => P (.distinct input) ∧ Everywhere P input
  | .subqueryScan input aliasName => P (.subqueryScan input aliasName) ∧ Everywhere P input
  | .join left right condition leftOuter =>
      P (.join left right condition leftOuter) ∧ Everywhere P left ∧ Everywhere P right
  | .setOp left right op all => P (.setOp left right op all) ∧ Everywhere P left ∧ Everywhere P right
  | .semiJoin left right leftKey rightKey corrOn negated =>
      P (.semiJoin left right leftKey rightKey corrOn negated) ∧ Everywhere P left ∧ Everywhere P right

theorem everywhereHere (all : Everywhere P plan) : P plan := by
  cases plan with
  | scan | cteScan => exact all
  | _ => exact all.1

theorem everywhereImp (one : ∀ {plan}, Everywhere P plan → Q plan) (all : Everywhere P plan) : Everywhere Q plan := by
  induction plan with
  | scan | cteScan => exact one all
  | join left right condition leftOuter ihLeft ihRight | setOp left right op all' ihLeft ihRight
  | semiJoin _ _ _ _ _ _ ihLeft ihRight => exact ⟨one all,ihLeft all.2.1,ihRight all.2.2⟩
  | _ =>
    rename_i ih
    exact ⟨one all,ih all.2⟩

/- The inputs and the condition of the inner join that repeated passes make of the plan
without looking below another operator: the join itself, or the last of the equalities that
stand on it. -/
def merged : LogicalPlan → Option (LogicalPlan × LogicalPlan × Expr)
  | .join left right condition false => some (left,right,condition)
  | .filter input predicate =>
      match merged input with
      | some (left,right,_) => if (extractEquiJoin predicate).isSome then some (left,right,predicate) else none
      | none => none
  | _ => none

def stacked (predicates : List Expr) (plan : LogicalPlan) : LogicalPlan := predicates.foldr (fun p q => .filter q p) plan

theorem mergedStacked (found : merged plan = some (left,right,condition)) : ∃ predicates inner,
      plan = stacked predicates (.join left right inner false) ∧
      (∀ p ∈ predicates, (extractEquiJoin p).isSome = true) ∧ condition = predicates.head?.getD inner := by
  induction plan generalizing condition with
  | join _ _ _ leftOuter =>
    cases leftOuter with
    | true => cases found
    | false =>
      cases found
      exact ⟨[],_,rfl,by simp,rfl⟩
  | filter _ predicate ih =>
    simp only [merged] at found
    split at found
    · rename_i l r c found'
      split at found
      · rename_i equality
        cases found
        obtain ⟨predicates,inner,rfl,equalities,_⟩ := ih found'
        exact ⟨predicate :: predicates,inner,rfl,forall_mem_cons.mpr ⟨equality,equalities⟩,rfl⟩
      · cases found
    · cases found
  | _ => cases found

theorem pushdownStacked (equality : (extractEquiJoin last).isSome = true) :
    pushdownPredicates (stacked (predicates ++ [last]) (.join left right condition false)) =
      stacked predicates (.join (pushdownPredicates^[2] left) (pushdownPredicates^[2] right) last false) := by
  induction predicates with
  | nil =>
    simp only [stacked,nil_append,foldr_cons,foldr_nil]
    rw [pushdownUnfold]
    simp only [pushdownStep,Bool.not_false,Bool.true_and,equality,if_true]
    exact pushdownUnfold _
  | cons p rest ih =>
    have inner : ∃ q r, stacked (rest ++ [last]) (.join left right condition false) = .filter q r := by
      cases rest with
      | nil | cons => exact ⟨_,_,rfl⟩
    obtain ⟨q,r,shape⟩ := inner
    show pushdownPredicates (.filter (stacked (rest ++ [last]) (.join left right condition false)) p) =
      .filter (stacked rest _) p
    rw [← ih,shape]
    exact pushdownUnfold _

theorem passesStacked (equalities : ∀ p ∈ predicates, (extractEquiJoin p).isSome = true)
    (left right condition) : ∃ n k, pushdownPredicates^[n] (stacked predicates (.join left right condition false)) =
        .join (pushdownPredicates^[k] left) (pushdownPredicates^[k] right) (predicates.head?.getD condition) false := by
  induction predicates using List.reverseRecOn generalizing left right condition with
  | nil => exact ⟨0,0,rfl⟩
  | append_singleton front last ih =>
    have equality := equalities last (by simp)
    obtain ⟨n,k,reached⟩ := ih (fun p mem => equalities p (by simp [mem])) (pushdownPredicates^[2] left)
      (pushdownPredicates^[2] right) last
    refine ⟨n+1,k+2,?_⟩
    rw [iterate_succ_apply,pushdownStacked equality,reached,iterate_add_apply,iterate_add_apply]
    cases front <;> rfl

theorem everywhereStacked (all : Everywhere P (stacked predicates plan)) : Everywhere P plan := by
  induction predicates with
  | nil => exact all
  | cons _ _ ih => exact ih all.2

end

def pairs (left right : List Row) : List Row := left.flatMap fun l => right.map fun r => l ++ r

theorem impliedOfSize {α : Type} {first second} {l : List α}
    (same : ((l.filter first).filter second).length = (l.filter second).length) :
    ∀ a ∈ l, second a = true → first a = true := by
  intro a mem met
  have inside : a ∈ l.filter second := mem_filter.mpr ⟨mem,met⟩
  rw [← (filter_sublist.filter second).eq_of_length same] at inside
  exact (mem_filter.mp (mem_filter.mp inside).1).2

section

structure Operators where
  scan : String → String → List Row
  cteScan : String → String → List Row
  project : List SelectItem → List Row → List Row
  aggregate : List String → List (String × AggFunc) → List Row → List Row
  sort : List (String × Bool) → List Row → List Row
  limit : Nat → Nat → List Row → List Row
  window : List WindowCompute → List Row → List Row
  semiJoin : String → String → Option Expr → Bool → List Row → List Row → List Row
  subqueryScan : String → List Row → List Row
  setOp : SetOpKind → Bool → List Row → List Row → List Row
  distinct : List Row → List Row

variable [Runtime]

def holds (predicate : Expr) (row : Row) : Bool := evalPredicate predicate row = .ok true

def innerJoin (condition : Expr) (left right : List Row) : List Row := (pairs left right).filter (holds condition)

def columnsOf (rows : List Row) : List String := KeyedBags.firstSeen id [] (rows.flatMap fun row => row.map Prod.fst)

def padded (columns : List String) (row : Row) : Row :=
  row ++ (columns.filter fun c => c ∉ row.map Prod.fst).map fun c => (c,.null)

def unmatched (condition : Expr) (left right : List Row) : List Row :=
  left.filter fun l => right.all fun r => !holds condition (l ++ r)

def leftJoin (condition : Expr) (left right : List Row) : List Row :=
  innerJoin condition left right ++ (unmatched condition left right).map (padded (columnsOf right))

def denote (ops : Operators) : LogicalPlan → List Row
  | .scan table qualifier => ops.scan table qualifier
  | .cteScan name qualifier => ops.cteScan name qualifier
  | .filter input predicate => (denote ops input).filter (holds predicate)
  | .join left right condition leftOuter =>
      if leftOuter then leftJoin condition (denote ops left) (denote ops right)
      else innerJoin condition (denote ops left) (denote ops right)
  | .project input items => ops.project items (denote ops input)
  | .aggregate input groupBy aggs => ops.aggregate groupBy aggs (denote ops input)
  | .sort input keys => ops.sort keys (denote ops input)
  | .limit input limit offset => ops.limit limit offset (denote ops input)
  | .window input windows => ops.window windows (denote ops input)
  | .semiJoin left right leftKey rightKey corrOn negated =>
      ops.semiJoin leftKey rightKey corrOn negated (denote ops left) (denote ops right)
  | .subqueryScan input aliasName => ops.subqueryScan aliasName (denote ops input)
  | .setOp left right op all => ops.setOp op all (denote ops left) (denote ops right)
  | .distinct input => ops.distinct (denote ops input)

def Implied (ops : Operators) : LogicalPlan → Prop
  | .filter input predicate => (extractEquiJoin predicate).isSome = true → ∀ left right condition,
      merged input = some (left,right,condition) → ∀ row ∈ pairs (denote ops left) (denote ops right),
        holds predicate row = true → holds condition row = true
  | _ => True

variable {ops : Operators}

theorem impliedInner (implied : Implied ops (.filter (.join left right condition false) predicate))
    (equality : (extractEquiJoin predicate).isSome = true) : innerJoin predicate (denote ops left) (denote ops right) =
      (innerJoin condition (denote ops left) (denote ops right)).filter (holds predicate) := by
  unfold innerJoin
  rw [filter_filter]
  refine filter_congr fun row mem => ?_
  cases met : holds predicate row with
  | false => rfl
  | true => rw [implied equality left right condition rfl row mem met]; rfl

structure Kept (ops : Operators) (plan : LogicalPlan) : Prop where
  denotes : denote ops (pushdownPredicates plan) = denote ops plan
  implied : Everywhere (Implied ops) (pushdownPredicates plan)
  merges : ∀ left right condition, merged (pushdownPredicates plan) = some (left,right,condition) →
    ∃ l r, merged plan = some (l,r,condition) ∧ denote ops left = denote ops l ∧ denote ops right = denote ops r

theorem filterKept (kept : Kept ops input) (implied : Implied ops (.filter input predicate))
    (pushed : pushdownPredicates (.filter input predicate) = .filter (pushdownPredicates input) predicate) :
    Kept ops (.filter input predicate) := by
  constructor
  · rw [pushed]
    simp [denote,kept.denotes]
  · rw [pushed]
    refine ⟨?_,kept.implied⟩
    intro equality left right condition found row mem met
    obtain ⟨l,r,found',sameLeft,sameRight⟩ := kept.merges left right condition found
    rw [sameLeft,sameRight] at mem
    exact implied equality l r condition found' row mem met
  · rw [pushed]
    intro _ _ _ found
    simp only [merged] at found ⊢
    split at found
    · rename_i left' right' inner found'
      obtain ⟨l,r,before,sameLeft,sameRight⟩ := kept.merges left' right' inner found'
      split at found
      · rename_i equality
        cases found
        exact ⟨l,r,by simp only [before,equality,if_true],sameLeft,sameRight⟩
      · cases found
    · cases found

theorem joinKept (keptLeft : Kept ops left) (keptRight : Kept ops right) (condition leftOuter) : Kept ops (.join left right condition leftOuter) := by
  have pushed : pushdownPredicates (.join left right condition leftOuter) =
      .join (pushdownPredicates left) (pushdownPredicates right) condition leftOuter := pushdownUnfold _
  constructor
  · rw [pushed]
    simp [denote,keptLeft.denotes,keptRight.denotes]
  · rw [pushed]
    exact ⟨trivial,keptLeft.implied,keptRight.implied⟩
  · rw [pushed]
    intro _ _ _ found
    cases leftOuter with
    | true => cases found
    | false =>
      cases found
      exact ⟨left,right,rfl,keptLeft.denotes,keptRight.denotes⟩

theorem fusedKept (keptLeft : Kept ops left)
    (keptRight : Kept ops right) (twiceLeft : Kept ops (pushdownPredicates left))
    (twiceRight : Kept ops (pushdownPredicates right)) (equality : (extractEquiJoin predicate).isSome = true)
    (implied : Implied ops (.filter (.join left right condition false) predicate)) :
    Kept ops (.filter (.join left right condition false) predicate) := by
  have first : pushdownPredicates (.filter (.join left right condition false) predicate) =
      pushdownPredicates (.join (pushdownPredicates left) (pushdownPredicates right) predicate false) := by
    rw [pushdownUnfold]
    simp [pushdownStep,Bool.not_false,equality]
  have again := joinKept twiceLeft twiceRight predicate false
  constructor
  · rw [first,again.denotes]
    simp only [denote,Bool.false_eq_true,if_false,keptLeft.denotes,keptRight.denotes]
    exact impliedInner implied equality
  · rw [first]
    exact again.implied
  · rw [first]
    intro left' right' condition' found
    obtain ⟨l,r,found',sameLeft,sameRight⟩ := again.merges left' right' condition' found
    cases found'
    refine ⟨left,right,?_,sameLeft.trans keptLeft.denotes,sameRight.trans keptRight.denotes⟩
    simp [merged,equality]

theorem otherKept (same : pushdownPredicates plan = pushed)
    (denotes : denote ops pushed = denote ops plan) (implied : Everywhere (Implied ops) pushed)
    (none' : merged pushed = none) : Kept ops plan := by
  subst same
  refine ⟨denotes,implied,fun _ _ _ found => ?_⟩
  rw [none'] at found
  cases found

theorem keptAll (implied : Everywhere (Implied ops) plan) : Kept ops plan := by
  induction bound : size plan using Nat.strong_induction_on generalizing plan with
  | _ n ih =>
    subst bound
    cases plan with
    | scan | cteScan => exact ⟨rfl,trivial,fun _ _ _ found => by cases found⟩
    | filter input predicate =>
      cases input with
      | join left right condition leftOuter =>
        have smallLeft : size left < size (.filter (.join left right condition leftOuter) predicate) := by
          simp only [size]
          omega
        have smallRight : size right < size (.filter (.join left right condition leftOuter) predicate) := by
          simp only [size]
          omega
        have keptLeft := ih _ smallLeft implied.2.2.1 rfl
        have keptRight := ih _ smallRight implied.2.2.2 rfl
        by_cases fused : leftOuter = false ∧ (extractEquiJoin predicate).isSome = true
        · obtain ⟨rfl,equality⟩ := fused
          have twiceLeft := ih _ (lt_of_le_of_lt (pushdownSize left) smallLeft) keptLeft.implied rfl
          have twiceRight := ih _ (lt_of_le_of_lt (pushdownSize right) smallRight) keptRight.implied rfl
          exact fusedKept keptLeft keptRight twiceLeft twiceRight equality implied.1
        · refine filterKept (joinKept keptLeft keptRight condition leftOuter) implied.1 ?_
          rw [pushdownUnfold,pushdownUnfold (.join left right condition leftOuter)]
          simp only [pushdownStep]
          rw [if_neg]
          simpa using fused
      | _ => exact filterKept (ih _ (Nat.lt_succ_self _) implied.2 rfl) implied.1 (pushdownUnfold _)
    | join left right condition leftOuter =>
      have keptLeft := ih (size left) (by simp only [size]; omega) implied.2.1 rfl
      have keptRight := ih (size right) (by simp only [size]; omega) implied.2.2 rfl
      exact joinKept keptLeft keptRight condition leftOuter
    | setOp left right | semiJoin left right =>
      have keptLeft := ih (size left) (by simp only [size]; omega) implied.2.1 rfl
      have keptRight := ih (size right) (by simp only [size]; omega) implied.2.2 rfl
      refine otherKept (pushdownUnfold _) ?_ ⟨trivial,keptLeft.implied,keptRight.implied⟩ rfl
      simp [pushdownStep,denote,keptLeft.denotes,keptRight.denotes]
    | _ =>
      have kept := ih _ (Nat.lt_succ_self _) implied.2 rfl
      refine otherKept (pushdownUnfold _) ?_ ⟨trivial,kept.implied⟩ rfl
      simp [pushdownStep,denote,kept.denotes]

def Preserved (ops : Operators) (plan : LogicalPlan) : Prop :=
  ∀ n, (denote ops (pushdownPredicates^[n] plan)).Perm (denote ops plan)

theorem passesKept (implied : Everywhere (Implied ops) plan) (n) :
    denote ops (pushdownPredicates^[n] plan) = denote ops plan := by
  induction n generalizing plan with
  | zero => rfl
  | succ _ ih =>
    have kept := keptAll implied
    rw [iterate_succ_apply,ih kept.implied,kept.denotes]

theorem mergedPreserved (all : Everywhere (Preserved ops) plan) (found : merged plan = some (left,right,condition)) :
    (denote ops plan).Perm (innerJoin condition (denote ops left) (denote ops right)) := by
  obtain ⟨_,inner,rfl,equalities,rfl⟩ := mergedStacked found
  obtain ⟨n,k,reached⟩ := passesStacked equalities left right inner
  have whole := everywhereHere all n
  obtain ⟨_,onLeft,onRight⟩ := everywhereStacked all
  rw [reached] at whole
  exact whole.symm.trans (((everywhereHere onLeft k).flatMap fun _ _ => (everywhereHere onRight k).map _).filter _)

theorem impliedOfPreserved {plan} (all : Everywhere (Preserved ops) plan) : Implied ops plan := by
  cases plan with
  | filter input predicate =>
    intro equality left right _ found
    have whole : merged (.filter input predicate) = some (left,right,predicate) := by
      simp [merged,found,equality]
    have below := (mergedPreserved all.2 found).filter (holds predicate)
    exact impliedOfSize (below.symm.trans (mergedPreserved all whole)).length_eq
  | _ => trivial

theorem preservedIff (plan : LogicalPlan) : Everywhere (Preserved ops) plan ↔ Everywhere (Implied ops) plan := by
  constructor
  · intro all
    exact everywhereImp impliedOfPreserved all
  · intro all
    exact everywhereImp (fun implied n => by rw [passesKept implied n]) all

end
section

def tables : Operators where
  scan table _ :=
    if table = "users" then [[("u.id",.bytes [49]),("u.city",.bytes [80])]]
    else [[("o.user_id",.bytes [50]),("o.city",.bytes [80])]]
  cteScan _ _ := []
  project _ rows := rows
  aggregate _ _ rows := rows
  sort _ rows := rows
  limit _ _ rows := rows
  window _ rows := rows
  semiJoin _ _ _ _ left _ := left
  subqueryScan _ rows := rows
  setOp _ _ left _ := left
  distinct rows := rows

def sameColumn (table column table' column' : String) : Expr :=
  .binary .eq (.column (.named (some table) column)) (.column (.named (some table') column'))

def neighbours : LogicalPlan :=
  .filter (.join (.scan "users" "u") (.scan "orders" "o") (sameColumn "u" "id" "o" "user_id") false)
    (sameColumn "u" "city" "o" "city")

theorem conditionDropped :
    ¬(@denote (plain id id) tables (pushdownPredicates neighbours)).Perm (@denote (plain id id) tables neighbours) := by
  intro same
  have sizes := same.length_eq
  revert sizes
  decide

end
end NoeDB.PushdownPredicates
