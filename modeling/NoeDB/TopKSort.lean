import NoeDB.RowOrder
import NoeDB.RowStream

/-! Sorting with a limit: the rewriting of `Limit` over `Sort` (noedb-planner: optimize.rs,
`fuse_top_k_sort`) and both operators (executor.rs). -/
namespace NoeDB.TopKSort
open ByteString SqlValue Plans Platform RowOrder RowStream List Runtime Output

def maxTopK : Nat := 256

def fuseTopKSort : PhysicalPlan → PhysicalPlan
  | .limit (.sort input keys none) limit 0 =>
      if limit ≤ maxTopK ∧ keys.length = 1 then .sort input keys (some limit)
      else .limit (.sort (fuseTopKSort input) keys none) limit 0
  | .limit input limit offset => .limit (fuseTopKSort input) limit offset
  | .filter input predicate => .filter (fuseTopKSort input) predicate
  | .project input items => .project (fuseTopKSort input) items
  | .hashJoin left right condition leftKey rightKey leftOuter =>
      .hashJoin (fuseTopKSort left) (fuseTopKSort right) condition leftKey rightKey leftOuter
  | .nestedLoopJoin left right condition => .nestedLoopJoin (fuseTopKSort left) (fuseTopKSort right) condition
  | .mergeJoin left right condition leftKey rightKey =>
      .mergeJoin (fuseTopKSort left) (fuseTopKSort right) condition leftKey rightKey
  | .aggregate input groupBy aggs => .aggregate (fuseTopKSort input) groupBy aggs
  | .sort input keys topK => .sort (fuseTopKSort input) keys topK
  | .window input windows => .window (fuseTopKSort input) windows
  | .semiJoin left right leftKey rightKey corrOn negated =>
      .semiJoin (fuseTopKSort left) (fuseTopKSort right) leftKey rightKey corrOn negated
  | .setOp left right op all => .setOp (fuseTopKSort left) (fuseTopKSort right) op all
  | .dedup input => .dedup (fuseTopKSort input)
  | .subqueryScan input qualifier columns => .subqueryScan (fuseTopKSort input) qualifier columns
  | other => other

section
variable [Runtime]

def notAfter (keys : List (String × Bool)) (a b : Row) : Bool := compareRows keys a b ≠ .gt

/- `select_nth_unstable_by(k - 1)` leaves no row before position `k` above one behind it. -/
def topRows (keys : List (String × Bool)) (topK : Option Nat) (rows : List Row) : List Row :=
  match topK with
  | some k => if 0 < k ∧ k < rows.length then (Runtime.select (notAfter keys) k rows).take k else rows
  | none => rows

def runSort (keys : List (String × Bool)) (topK : Option Nat) (out : Output) : Eval Output := do
  let rows ← out.collect
  .ok (.ofRows (sortRows keys (topRows keys topK rows)))

def runLimit (limit offset : Nat) (out : Output) : Eval Output :=
  if out.rows.length < offset then
    match out.fault with
    | some fault => .error fault
    | none => .ok (.ofRows [])
  else .ok ⟨(out.rows.drop offset).take limit,if out.rows.length < offset+limit then out.fault else none⟩

/- Any meaning of the other operators. Of the plans below them they see single scans only. -/
structure Operators where
  leaf : PhysicalPlan → Eval Output
  unary : PhysicalPlan → Eval Output → Eval Output
  binary : PhysicalPlan → Eval Output → Eval Output → Eval Output

def seen : PhysicalPlan → PhysicalPlan
  | .seqScan table qualifier columns => .seqScan table qualifier columns
  | .filter (.seqScan table qualifier columns) predicate => .filter (.seqScan table qualifier columns) predicate
  | _ => .cteScan "" "" none

def execute (ops : Operators) : PhysicalPlan → Eval Output
  | .limit input limit offset => (execute ops input).bind (runLimit limit offset)
  | .sort input keys topK => (execute ops input).bind (runSort keys topK)
  | .filter input predicate => ops.unary (.filter (seen input) predicate) (execute ops input)
  | .project input items => ops.unary (.project (seen input) items) (execute ops input)
  | .aggregate input groupBy aggs => ops.unary (.aggregate (seen input) groupBy aggs) (execute ops input)
  | .window input windows => ops.unary (.window (seen input) windows) (execute ops input)
  | .dedup input => ops.unary (.dedup (seen input)) (execute ops input)
  | .subqueryScan input qualifier columns => ops.unary (.subqueryScan (seen input) qualifier columns) (execute ops input)
  | .hashJoin left right condition leftKey rightKey leftOuter =>
      ops.binary (.hashJoin (seen left) (seen right) condition leftKey rightKey leftOuter) (execute ops left) (execute ops right)
  | .nestedLoopJoin left right condition =>
      ops.binary (.nestedLoopJoin (seen left) (seen right) condition) (execute ops left) (execute ops right)
  | .mergeJoin left right condition leftKey rightKey =>
      ops.binary (.mergeJoin (seen left) (seen right) condition leftKey rightKey) (execute ops left) (execute ops right)
  | .semiJoin left right leftKey rightKey corrOn negated =>
      ops.binary (.semiJoin (seen left) (seen right) leftKey rightKey corrOn negated) (execute ops left) (execute ops right)
  | .setOp left right op all => ops.binary (.setOp (seen left) (seen right) op all) (execute ops left) (execute ops right)
  | other => ops.leaf other

end
section

def sortImage (column : String) (row : Row) : Nat × Bytes :=
  (sortTag (sortField column row),sortBytes (sortField column row))

def imageOrder (asc : Bool) (x y : Nat × Bytes) : Ordering :=
  if asc then (ordering x.1 y.1).then (ordering x.2 y.2) else (ordering y.1 x.1).then (ordering y.2 x.2)

theorem compareImages (key a b) :
    compareRows [key] a b = imageOrder key.2 (sortImage key.1 a) (sortImage key.1 b) := by
  rw [compareRowsLex]
  simp only [compareLex,compareRows,Ordering.then_eq,compareColumn,compareTags]
  rfl

theorem imageAntisymm (first : imageOrder asc x y ≠ .gt) (second : imageOrder asc y x ≠ .gt) : x = y := by
  have upward : ∀ {x y : Nat × Bytes}, (ordering x.1 y.1).then (ordering x.2 y.2) ≠ .gt →
      (ordering y.1 x.1).then (ordering y.2 x.2) ≠ .gt → x = y := by
    intro x y below above
    rw [ne_eq,Ordering.then_eq_gt,ordering,ordering,cmp_eq_gt_iff,cmp_eq_eq_iff,cmp_eq_gt_iff,not_or,not_and,not_lt,
      not_lt] at below above
    have same : x.1 = y.1 := le_antisymm below.1 above.1
    exact Prod.ext same (le_antisymm (below.2 same) (above.2 same.symm))
  cases asc with
  | true => exact upward first second
  | false => exact upward second first

theorem sortedImages {key : String × Bool} {first second : List Row} (perm : first.Perm second)
    (sorted : first.Pairwise fun a b => compareRows [key] a b ≠ .gt)
    (again : second.Pairwise fun a b => compareRows [key] a b ≠ .gt) :
    first.map (sortImage key.1) = second.map (sortImage key.1) := by
  simp only [compareImages] at sorted again
  exact (perm.map _).eq_of_pairwise (fun _ _ _ _ => imageAntisymm) (pairwise_map.mpr sorted) (pairwise_map.mpr again)

def Untied (key : String × Bool) (rows : List Row) : Prop :=
  ∀ a ∈ rows, ∀ b ∈ rows, sortImage key.1 a = sortImage key.1 b → a = b

theorem untiedImages {key : String × Bool} {rows first second : List Row} (untied : Untied key rows)
    (here : ∀ a ∈ first, a ∈ rows) (there : ∀ b ∈ second, b ∈ rows)
    (same : first.map (sortImage key.1) = second.map (sortImage key.1)) : first = second := by
  induction first generalizing second with
  | nil => exact (map_eq_nil_iff.mp same.symm).symm
  | cons a _ ih =>
    cases second with
    | nil => cases same
    | cons b =>
      obtain ⟨head,tail⟩ := List.cons.inj same
      obtain ⟨inA,inFirst⟩ := forall_mem_cons.mp here
      obtain ⟨inB,inSecond⟩ := forall_mem_cons.mp there
      rw [untied a inA b inB head,ih inFirst inSecond tail]

theorem seenFused (plan) : seen (fuseTopKSort plan) = seen plan := by
  fun_cases fuseTopKSort plan with
  | case4 input => fun_cases fuseTopKSort input <;> rfl
  | _ => rfl

end
section
variable [Runtime]

theorem fusedImages {k : Nat} (key : String × Bool) {rows : List Row} (kept : k ≠ 0 ∨ rows = []) :
    (sortRows [key] (topRows [key] (some k) rows)).map (sortImage key.1) =
      ((sortRows [key] rows).take k).map (sortImage key.1) := by
  simp only [topRows]
  split
  · rename_i cut
    have perm := selectPerm (notAfter [key]) k rows
    have parts := selectParts (notAfter [key]) k rows
      (fun a b c first second => decide_eq_true (rowsTrans (of_decide_eq_true first) (of_decide_eq_true second)))
      (fun a b => (rowsTotal [key] a b).imp decide_eq_true decide_eq_true)
    generalize select (notAfter [key]) k rows = chosen at perm parts
    have sorted := fun l => sortRowsPerm [key] l
    have inOrder : (sortRows [key] (chosen.take k) ++ sortRows [key] (chosen.drop k)).Pairwise
        fun a b => compareRows [key] a b ≠ .gt :=
      pairwise_append.mpr ⟨sortedRows _ _,sortedRows _ _,fun a first b second =>
        of_decide_eq_true (parts a ((sorted _).mem_iff.mp first) b ((sorted _).mem_iff.mp second))⟩
    have all := ((sorted (chosen.take k)).append (sorted (chosen.drop k))).trans
      ((take_append_drop k chosen ▸ perm).trans (sorted rows).symm)
    have length : (sortRows [key] (chosen.take k)).length = k := by
      rw [(sorted _).length_eq,length_take,perm.length_eq]
      omega
    rw [map_take,← sortedImages all inOrder (sortedRows _ _),map_append,take_left' (by rw [length_map,length])]
  · rename_i uncut
    rw [take_of_length_le]
    rw [(sortRowsPerm [key] rows).length_eq]
    rcases kept with _ | rfl
    · omega
    · simp

def rowCount (result : Eval Output) : Eval Nat := result.map fun out => out.rows.length
def keyValues (column : String) (result : Eval Output) : Eval (List (Nat × Bytes)) :=
  result.map fun out => out.rows.map (sortImage column)

def collected (ops : Operators) (plan : PhysicalPlan) : Eval (List Row) := (execute ops plan).bind Output.collect

theorem sortCollected (ops input keys topK) : execute ops (.sort input keys topK) =
      (collected ops input).map fun rows => .ofRows (sortRows keys (topRows keys topK rows)) := by
  rw [execute,collected]
  cases execute ops input with
  | error => rfl
  | ok out => cases collected : out.collect <;> simp [Except.bind,Except.map,runSort,bind,collected]

theorem limitCollected (ops input keys limit) : execute ops (.limit (.sort input keys none) limit 0) =
      (collected ops input).map fun rows => .ofRows ((sortRows keys rows).take limit) := by
  rw [execute,sortCollected]
  cases collected ops input with
  | error => rfl
  | ok => simp [Except.bind,Except.map,runLimit,topRows,ofRows]

def inputs : PhysicalPlan → List PhysicalPlan
  | .filter input _ | .project input _ | .aggregate input _ _ | .sort input _ _ | .limit input _ _ | .window input _
  | .subqueryScan input _ _ | .dedup input => [input]
  | .hashJoin left right _ _ _ _ | .nestedLoopJoin left right _ | .mergeJoin left right _ _ _
  | .semiJoin left right _ _ _ _ | .setOp left right _ _ => [left,right]
  | .seqScan _ _ _ | .pkLookup _ _ _ | .indexScan _ _ _ _ | .cteScan _ _ _ => []

inductive Within : PhysicalPlan → PhysicalPlan → Prop where
  | here {plan} : Within plan plan
  | inside {plan input part} (mem : input ∈ inputs plan) (within : Within input part) : Within plan part

def Settled (ops : Operators) (plan : PhysicalPlan) : Prop :=
  ∀ {input key k rows}, Within plan (.limit (.sort input [key] none) k 0) → k ≤ maxTopK →
    collected ops input = .ok rows → (k ≠ 0 ∨ rows = []) ∧ Untied key rows

theorem Settled.input {ops plan part} (settled : Settled ops plan) (mem : part ∈ inputs plan) : Settled ops part :=
  fun within => settled (.inside mem within)

theorem topRowsMem {keys rows} (mem : row ∈ sortRows keys (topRows keys (some k) rows)) : row ∈ rows := by
  have chosen := (sortRowsPerm _ _).mem_iff.mp mem
  simp only [topRows] at chosen
  split at chosen
  · exact (selectPerm _ _ _).mem_iff.mp (mem_of_mem_take chosen)
  · exact chosen

theorem fusedPlan (settled : Settled ops plan) : execute ops (fuseTopKSort plan) = execute ops plan := by
  fun_induction fuseTopKSort plan with
  | case1 input _ _ fits =>
    obtain ⟨key,rfl⟩ := length_eq_one_iff.mp fits.2
    rw [sortCollected,limitCollected]
    cases found : collected ops input with
    | error => rfl
    | ok =>
      obtain ⟨kept,untied⟩ := settled .here fits.1 found
      have same := untiedImages untied (fun _ mem => topRowsMem mem)
        (fun _ mem => (sortRowsPerm _ _).mem_iff.mp (mem_of_mem_take mem)) (fusedImages key kept)
      simp [Except.map,same]
  | case2 _ _ _ _ ih =>
    simp [execute,ih fun within => settled (.inside (mem_singleton_self _) (.inside (mem_singleton_self _) within))]
  | case16 => rfl
  | _ =>
    have parts := fun part => @Settled.input _ _ _ part settled
    simp_all [execute,seenFused,inputs]

theorem fusedLength (key) {rows} :
    (sortRows [key] (topRows [key] (some k) rows)).length = ((sortRows [key] rows).take k).length ↔ k ≠ 0 ∨ rows = [] := by
  refine ⟨fun same => ?_,fun kept => ?_⟩
  · refine or_iff_not_imp_left.mpr fun zero => ?_
    rw [not_not.mp zero,take_zero,length_nil,(sortRowsPerm _ _).length_eq] at same
    exact length_eq_zero_iff.mp same
  · simpa only [length_map] using congrArg length (fusedImages key kept)

end

end NoeDB.TopKSort
