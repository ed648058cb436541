import NoeDB.OrderedTable
import NoeDB.PushdownPredicates
import NoeDB.RowStream
import NoeDB.SortedMerge

/-! The join operators (noedb-planner: executor.rs, `build_state` of HashJoin, NestedLoopJoin
and MergeJoin) and when they give the rows of the nested loop. -/
namespace NoeDB.JoinOperators
open ByteString OrderedTable SqlAst SqlValue Platform SqlEval Plans RowStream PushdownPredicates List SortedMerge KeyedBags

section

def rightColumns (right : List Row) : List String :=
  right.foldl (fun cols row => row.foldl (fun cols field => if field.1 ∈ cols then cols else cols ++ [field.1]) cols) []

def padRow (rightCols : List String) (lrow : Row) : Row :=
  rightCols.foldl (fun row col => if row.any (fun field => field.1 = col) then row else row ++ [(col,.null)]) lrow

def bucketsOf (rightKey : String) (right : List Row) : Table Bytes (List Row) :=
  right.foldl (fun buckets row =>
    match joinKeyValue row rightKey with
    | some key => buckets.insert key ((buckets.find key).getD [] ++ [row])
    | none => buckets) .empty

def probe (buckets : Table Bytes (List Row)) (rightCols : List String) (leftKey : String) (leftOuter : Bool)
    (lrow : Row) : List Row :=
  match (joinKeyValue lrow leftKey).bind buckets.find with
  | some (first :: more) => (first :: more).map fun rrow => lrow ++ rrow
  | _ => if leftOuter then [padRow rightCols lrow] else []

def hashJoin (leftKey rightKey : String) (leftOuter : Bool) (left right : List Row) : List Row :=
  let rightCols := if leftOuter then rightColumns right else []
  left.flatMap (probe (bucketsOf rightKey right) rightCols leftKey leftOuter)

variable [Runtime]

def nestedLoopJoin (condition : Expr) (left right : List Row) : Output :=
  selecting (evalPredicate condition) (pairs left right) none

/- A row without the column sorts before all others. -/
def sortKey (column : String) (row : Row) : WithBot Bytes := joinKeyValue row column

def mergeRow (condition : Expr) (leftKey rightKey : String) (lrow : Row) (next : List Row → Eval (List Row)) :
    List Row → Eval (List Row)
  | [] => .ok []
  | rrow :: rest =>
      if sortKey leftKey lrow < sortKey rightKey rrow then next (rrow :: rest)
      else if sortKey rightKey rrow < sortKey leftKey lrow then mergeRow condition leftKey rightKey lrow next rest
      else do
        let met ← evalPredicate condition (lrow ++ rrow)
        let later ← mergeRow condition leftKey rightKey lrow next rest
        .ok (if met then (lrow ++ rrow) :: later else later)

def mergeRows (condition : Expr) (leftKey rightKey : String) : List Row → List Row → Eval (List Row)
  | [] => fun _ => .ok []
  | lrow :: rest => mergeRow condition leftKey rightKey lrow (mergeRows condition leftKey rightKey rest)

def mergeJoin (condition : Expr) (leftKey rightKey : String) (left right : List Row) : Eval (List Row) :=
  mergeRows condition leftKey rightKey (SortedMerge.sorted (sortKey leftKey) left)
    (SortedMerge.sorted (sortKey rightKey) right)

end

section

def matched (leftKey rightKey : String) (lrow rrow : Row) : Bool :=
  (joinKeyValue lrow leftKey).isSome && decide (joinKeyValue lrow leftKey = joinKeyValue rrow rightKey)

theorem collectedFirstSeen (names cols : List String) :
    names.foldl (fun cols name => if name ∈ cols then cols else cols ++ [name]) cols =
      cols ++ firstSeen id cols names := by
  induction names generalizing cols with
  | nil => simp [firstSeen]
  | cons name _ ih =>
    rw [foldl_cons,ih,firstSeen]
    by_cases present : name ∈ cols
    · simp [id,present]
    · have grown : ∀ k, k ∈ cols ++ [name] ↔ k ∈ name :: cols := fun k => by simp [or_comm]
      simp [id,present,append_assoc,firstSeenSame grown]

theorem rightColumnsOf (right : List Row) : rightColumns right = columnsOf right := by
  have flat := collectedFirstSeen (right.flatMap fun row => row.map Prod.fst) []
  rw [foldl_flatMap] at flat
  simp only [foldl_map,nil_append] at flat
  exact flat

theorem padRowPadded (once : cols.Nodup) (row) : padRow cols row = padded cols row := by
  unfold padRow
  induction cols generalizing row with
  | nil => simp [padded]
  | cons col rest ih =>
    obtain ⟨new,once⟩ := nodup_cons.mp once
    rw [foldl_cons,ih once]
    have named : row.any (fun field => decide (field.1 = col)) = decide (col ∈ row.map Prod.fst) := by
      rw [Bool.eq_iff_iff]
      simp [any_eq_true]
    rw [named]
    unfold padded
    by_cases present : col ∈ row.map Prod.fst
    · simp only [present,decide_true,if_true,filter_cons,not_true_eq_false,decide_false,Bool.false_eq_true,if_false]
    · simp only [present,decide_false,Bool.false_eq_true,if_false,filter_cons,not_false_eq_true,decide_true,if_true,
        map_cons,append_assoc,singleton_append]
      have others : (rest.filter fun c => decide (c ∉ (row ++ [(col,Value.null)]).map Prod.fst)) =
          rest.filter fun c => decide (c ∉ row.map Prod.fst) := by
        refine filter_congr fun c mem => ?_
        have other : c ≠ col := fun same => new (same ▸ mem)
        simp [other]
      rw [others]

theorem bucketsFind (rightKey right key) :
    ((bucketsOf rightKey right).find key).getD [] = right.filter fun row => joinKeyValue row rightKey = some key := by
  induction right using List.reverseRecOn with
  | nil => rfl
  | append_singleton front row ih =>
    have step : bucketsOf rightKey (front ++ [row]) = match joinKeyValue row rightKey with
        | some key => (bucketsOf rightKey front).insert key (((bucketsOf rightKey front).find key).getD [] ++ [row])
        | none => bucketsOf rightKey front := by
      simp [bucketsOf,foldl_append,foldl_cons,foldl_nil]
    rw [step,filter_append,← ih]
    cases found : joinKeyValue row rightKey with
    | none => simp [found]
    | some other =>
      by_cases same : key = other
      · subst same
        simp [found]
      · have apart : other ≠ key := fun h => same h.symm
        simp [found,apart]

theorem probeMatched (leftKey rightKey leftOuter cols right lrow) :
    probe (bucketsOf rightKey right) cols leftKey leftOuter lrow =
      (right.filter (matched leftKey rightKey lrow)).map (fun rrow => lrow ++ rrow) ++
        if leftOuter ∧ right.filter (matched leftKey rightKey lrow) = [] then [padRow cols lrow] else [] := by
  unfold probe
  cases key : joinKeyValue lrow leftKey with
  | none =>
    have unmatched' : right.filter (matched leftKey rightKey lrow) = [] := by simp [matched,key]
    simp [unmatched']
  | some k =>
    have rows : right.filter (matched leftKey rightKey lrow) =
        right.filter fun row => joinKeyValue row rightKey = some k :=
      filter_congr fun row _ => by simp [matched,key,eq_comm]
    rw [rows,← bucketsFind]
    cases found : (bucketsOf rightKey right).find k with
    | none => simp [found]
    | some bucket => cases bucket <;> simp [found]

theorem hashInner (leftKey rightKey left right) : hashJoin leftKey rightKey false left right =
    left.flatMap fun l => (right.filter (matched leftKey rightKey l)).map fun r => l ++ r := by
  refine flatMap_congr fun l _ => ?_
  simp [probeMatched]

theorem flatMapChosen {α β : Type} (test) (image : α → β) (l : List α) :
    (l.flatMap fun a => if test a then [image a] else []) = (l.filter test).map image := by
  induction l with
  | nil => rfl
  | cons _ _ ih =>
    rw [flatMap_cons,ih,filter_cons]
    split <;> rfl

theorem hashOuter (leftKey rightKey) (left right : List Row) :
    (hashJoin leftKey rightKey true left right).Perm (hashJoin leftKey rightKey false left right ++
      (left.filter fun l => (right.filter (matched leftKey rightKey l)).isEmpty).map (padded (columnsOf right))) := by
  have once : (columnsOf right).Nodup := List.Nodup.of_map id (nodupFirstSeen [] _)
  rw [hashInner,← flatMapChosen]
  refine List.Perm.trans (List.Perm.of_eq ?_) (flatMap_append_perm left _ _).symm
  refine flatMap_congr fun l _ => ?_
  simp [probeMatched,true_and,rightColumnsOf,padRowPadded once,List.isEmpty_iff]

end

section
def Sole (leftKey rightKey : String) (left right : List Row) : Prop :=
  ∀ r ∈ right, (left.filter fun l => matched leftKey rightKey l r).length ≤ 1

variable {leftKey rightKey : String} {left right : List Row}

def joined (leftKey rightKey : String) (left right : List Row) : List (Row × Row) :=
  left.flatMap fun l => (right.filter fun r => matched leftKey rightKey l r).map fun r => (l,r)

def soles (leftKey rightKey : String) (left right : List Row) : List (Row × Row) :=
  right.flatMap fun r => ((left.find? fun l => matched leftKey rightKey l r).map fun l => (l,r)).toList

theorem hashJoined : hashJoin leftKey rightKey false left right =
    (joined leftKey rightKey left right).map fun p => p.1 ++ p.2 := by
  rw [hashInner,joined,map_flatMap]
  exact flatMap_congr fun l _ => by simp only [map_map]; rfl

theorem joinedProduct : joined leftKey rightKey left right =
    (left ×ˢ right).filter fun p => matched leftKey rightKey p.1 p.2 := by
  show _ = (left.flatMap fun l => right.map (Prod.mk l)).filter _
  rw [filter_flatMap]
  exact flatMap_congr fun l _ => by rw [filter_map]; rfl

theorem pairsProduct : pairs left right = (left ×ˢ right).map fun p => p.1 ++ p.2 := by
  show _ = (left.flatMap fun l => right.map (Prod.mk l)).map _
  rw [map_flatMap]
  exact flatMap_congr fun l _ => by rw [map_map]; rfl

theorem firstsSoles (leftKey rightKey left right) :
    ((firsts (sortKey leftKey) (sortKey rightKey) left right).filter fun p => matched leftKey rightKey p.1 p.2) =
      soles leftKey rightKey left right := by
  refine firstsMet fun r _ => ?_
  cases key : joinKeyValue r rightKey with
  | none =>
    refine .inl fun l => ?_
    cases lkey : joinKeyValue l leftKey <;> simp [matched,key,lkey]
  | some =>
    refine .inr fun l => ?_
    unfold sortKey
    cases lkey : joinKeyValue l leftKey with
    | none => simp [matched,key,lkey]
    | some =>
      simp only [matched,key,lkey,Option.isSome_some,Bool.true_and,decide_eq_true_eq]
      rfl

theorem solesJoined (sole : Sole leftKey rightKey left right) :
    (soles leftKey rightKey left right).Perm (joined leftKey rightKey left right) := by
  refine List.Perm.trans (List.Perm.of_eq ?_) (swapPairs _ left right).symm
  refine flatMap_congr fun r mem => ?_
  have few := sole r mem
  rw [← List.head?_filter]
  cases chosen : left.filter fun l => matched leftKey rightKey l r with
  | nil => rfl
  | cons =>
    rw [chosen,length_cons] at few
    cases length_eq_zero_iff.mp (Nat.le_zero.mp (Nat.le_of_succ_le_succ few))
    rfl

theorem soleOfSize (same : (soles leftKey rightKey left right).length = (joined leftKey rightKey left right).length) :
    Sole leftKey rightKey left right := by
  have swapped := (swapPairs (fun l r => matched leftKey rightKey l r) left right).length_eq
  have sums := same.trans swapped
  unfold soles at sums
  rw [length_flatMap,length_flatMap] at sums
  intro r mem
  have whole := wholeOfSum (fun r _ => ?_) sums r mem
  · rw [length_map] at whole
    rw [← whole]
    cases left.find? fun l => matched leftKey rightKey l r <;> simp
  · rw [← List.head?_filter]
    cases left.filter fun l => matched leftKey rightKey l r <;> simp

end

section
variable [Runtime]

theorem mergeRowCandidates (condition leftKey rightKey lrow) {next}
    (nexts : ∀ right, next right = (selecting (evalPredicate condition) ((candidates right).map fun p => p.1 ++ p.2) none).collect)
    (right) : mergeRow condition leftKey rightKey lrow next right = (selecting (evalPredicate condition)
        ((SortedMerge.mergeRow (sortKey leftKey) (sortKey rightKey) lrow candidates right).map fun p => p.1 ++ p.2) none).collect := by
  induction right with
  | nil => rfl
  | cons rrow rest ih =>
    unfold mergeRow SortedMerge.mergeRow
    split
    · exact nexts _
    · split
      · exact ih
      · rw [ih,map_cons,selecting]
        cases tested : evalPredicate condition (lrow ++ rrow) with
        | error => rfl
        | ok =>
          cases ended : (selecting (evalPredicate condition) ((SortedMerge.mergeRow (sortKey leftKey) (sortKey rightKey)
            lrow candidates rest).map fun p => p.1 ++ p.2) none).fault <;>
            simp only [Output.collect,ended] <;> rfl

theorem mergeRowsCandidates (condition leftKey rightKey left right) :
    mergeRows condition leftKey rightKey left right = (selecting (evalPredicate condition)
      ((merge (sortKey leftKey) (sortKey rightKey) left right).map fun p => p.1 ++ p.2) none).collect := by
  induction left generalizing right with
  | nil => rfl
  | cons lrow _ ih => exact mergeRowCandidates condition leftKey rightKey lrow ih right

def Exact (condition : Expr) (leftKey rightKey : String) (left right : List Row) : Prop :=
  ∀ l ∈ left, ∀ r ∈ right, evalPredicate condition (l ++ r) = .ok (matched leftKey rightKey l r)

variable {condition : Expr} {leftKey rightKey : String} {left right : List Row}

theorem exactPairs (exactly : Exact condition leftKey rightKey left right) {candidates : List (Row × Row)}
    (inside : ∀ p ∈ candidates, p.1 ∈ left ∧ p.2 ∈ right) :
    selecting (evalPredicate condition) (candidates.map fun p => p.1 ++ p.2) none =
      .ofRows ((candidates.filter fun p => matched leftKey rightKey p.1 p.2).map fun p => p.1 ++ p.2) := by
  induction candidates with
  | nil => rfl
  | cons p _ ih =>
    obtain ⟨here,later⟩ := forall_mem_cons.mp inside
    rw [map_cons,selecting,exactly p.1 here.1 p.2 here.2,ih later,filter_cons]
    cases matched leftKey rightKey p.1 p.2 <;> rfl

theorem nestedExact (exactly : Exact condition leftKey rightKey left right) :
    nestedLoopJoin condition left right = .ofRows (hashJoin leftKey rightKey false left right) := by
  unfold nestedLoopJoin
  rw [pairsProduct,exactPairs exactly fun p mem => mem_product.mp mem,hashJoined,joinedProduct]

theorem mergeExact (exactly : Exact condition leftKey rightKey left right) :
    ∃ merged, mergeJoin condition leftKey rightKey left right = .ok merged ∧
      merged.Perm ((soles leftKey rightKey left right).map fun p => p.1 ++ p.2) := by
  have inside : ∀ p ∈ firsts (sortKey leftKey) (sortKey rightKey) left
      (sorted (sortKey rightKey) right), p.1 ∈ left ∧ p.2 ∈ right := by
    intro p mem
    obtain ⟨r,inRight,found⟩ := mem_filterMap.mp mem
    obtain ⟨l,chosen,rfl⟩ := Option.map_eq_some_iff.mp found
    exact ⟨mem_of_find?_eq_some chosen,(sortedPerm right).subset inRight⟩
  have stable : firsts (sortKey leftKey) (sortKey rightKey) (sorted (sortKey leftKey) left)
      (sorted (sortKey rightKey) right) =
      firsts (sortKey leftKey) (sortKey rightKey) left (sorted (sortKey rightKey) right) := by
    unfold firsts
    simp [findSorted]
  refine ⟨(soles leftKey rightKey left (sorted (sortKey rightKey) right)).map fun p => p.1 ++ p.2,?_,?_⟩
  · unfold mergeJoin
    rw [mergeRowsCandidates,mergeFirsts (sortedPairwise left) (sortedPairwise right),
      stable,exactPairs exactly inside,firstsSoles]
    rfl
  · exact ((sortedPerm right).flatMap fun _ _ => .refl _).map _

theorem unmatchedExact (exactly : Exact condition leftKey rightKey left right) : unmatched condition left right =
    left.filter fun l => (right.filter (matched leftKey rightKey l)).isEmpty := by
  refine filter_congr fun l inLeft => ?_
  rw [Bool.eq_iff_iff,List.isEmpty_iff,filter_eq_nil_iff,all_eq_true]
  refine forall₂_congr fun r inRight => ?_
  simp [holds,exactly l inLeft r inRight]

def Agree (leftPlan rightPlan : LogicalPlan) (condition : Expr) (left right : List Row) : Prop :=
  let keys := joinKeys leftPlan rightPlan condition
  ∃ rows, (nestedLoopJoin condition left right).collect = .ok rows ∧
    (hashJoin keys.left keys.right false left right).Perm rows ∧
    (∃ merged, mergeJoin condition keys.left keys.right left right = .ok merged ∧ merged.Perm rows) ∧
    (hashJoin keys.left keys.right true left right).Perm
      (rows ++ (unmatched condition left right).map (padded (columnsOf right)))

theorem exactOfHash (nested : (nestedLoopJoin condition left right).collect = .ok rows)
    (hash : (hashJoin leftKey rightKey false left right).Perm rows) : Exact condition leftKey rightKey left right := by
  have out := collectOk.mp nested
  have valued : ∀ row ∈ pairs left right, evalPredicate condition row = .ok (holds condition row) := by
    intro row mem
    obtain ⟨keep,tested⟩ := selectingNoFault (congrArg Output.fault out) row mem
    cases keep <;> simp [holds,tested]
  have found : rows = (pairs left right).filter (holds condition) := by
    unfold nestedLoopJoin at out
    rw [selectingOk valued] at out
    exact (congrArg Output.rows out).symm
  rw [found,pairsProduct,hashJoined,joinedProduct] at hash
  have same := agreeOfImages hash
  intro l inLeft r inRight
  have mem : (l,r) ∈ left ×ˢ right := mem_product.mpr ⟨inLeft,inRight⟩
  rw [valued (l ++ r) (pairsProduct ▸ mem_map_of_mem mem),same (l,r) mem]

theorem operatorsAgreeIff (leftPlan rightPlan : LogicalPlan) (condition : Expr) (left right : List Row) :
    Agree leftPlan rightPlan condition left right ↔
      Exact condition (joinKeys leftPlan rightPlan condition).left (joinKeys leftPlan rightPlan condition).right left right ∧
        Sole (joinKeys leftPlan rightPlan condition).left (joinKeys leftPlan rightPlan condition).right left right := by
  constructor
  · rintro ⟨_,nested,hash,⟨merged,mergedOk,mergedRows⟩,_⟩
    have exactly := exactOfHash nested hash
    refine ⟨exactly,soleOfSize ?_⟩
    obtain ⟨_,mergedOk',soleRows⟩ := mergeExact exactly
    cases mergedOk.symm.trans mergedOk'
    have sizes := (soleRows.symm.trans (mergedRows.trans hash.symm)).length_eq
    rw [hashJoined] at sizes
    simpa only [length_map] using sizes
  · rintro ⟨exactly,sole⟩
    obtain ⟨merged,mergedOk,soleRows⟩ := mergeExact exactly
    refine ⟨_,collectOk.mpr (nestedExact exactly),.refl _,⟨merged,mergedOk,?_⟩,?_⟩
    · rw [hashJoined]
      exact soleRows.trans ((solesJoined sole).map _)
    · rw [unmatchedExact exactly]
      exact hashOuter _ _ left right

end

section

def authors : List Row := [[("a.name",.bytes [97]),("a.born",.bytes [49])],[("a.name",.bytes [97]),("a.born",.bytes [50])]]

def books : List Row := [[("b.author",.bytes [97])]]

def byAuthor : Expr := sameColumn "a" "name" "b" "author"

theorem secondAuthorLost : ¬@Agree (plain id id) (.scan "authors" "a") (.scan "books" "b") byAuthor authors books := by
  rintro ⟨_,_,hash,⟨_,done,perm⟩,_⟩
  have both : (hashJoin "a.name" "b.author" false authors books).length = 2 := by decide
  have one : (@mergeJoin (plain id id) byAuthor "a.name" "b.author" authors books).toOption.map List.length = some 1 := by
    decide
  have keys : joinKeys (.scan "authors" "a") (.scan "books" "b") byAuthor = ⟨"a.name","b.author"⟩ := by decide
  simp only [keys] at hash done
  rw [done] at one
  have sizes := perm.length_eq.trans hash.length_eq.symm
  rw [both,Option.some_inj.mp one] at sizes
  cases sizes

end
end NoeDB.JoinOperators
