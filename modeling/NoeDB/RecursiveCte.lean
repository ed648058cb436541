import NoeDB.Saturation
import NoeDB.SetOps

/-! Recursive common table expressions (noedb-planner: cte.rs, `materialize_recursive`). -/
namespace NoeDB.RecursiveCte
open ByteString SqlValue SetOps Saturation List

/- `recursive` runs the second member over the rows so far; the rest of what `run_select` reads
does not change. -/
def materializeRecursive (anchor : Eval (List Row)) (recursive : List Row → Eval (List Row)) (fuel : Nat) :
    Eval (List Row) := do
  let acc ← anchor
  saturate rowKey recursive .endless fuel acc

theorem recursiveLeast {F recursive} (monotone : Monotone F)
    (computes : Computes rowKey recursive F) (anchor : List Row) :
    IsLeast {s | keysOf rowKey anchor ⊆ s ∧ F s ⊆ s} (least F (keysOf rowKey anchor)) ∧
      (∀ fuel rows, materializeRecursive (.ok anchor) recursive fuel = .ok rows →
        keysOf rowKey rows = least F (keysOf rowKey anchor)) ∧
      ((least F (keysOf rowKey anchor)).Finite →
        ∃ n, ∀ fuel, n ≤ fuel → ∃ rows, materializeRecursive (.ok anchor) recursive fuel = .ok rows) := by
  have lowest : IsLeast _ (least F (keysOf rowKey anchor)) := leastClosed monotone
  obtain ⟨based,closed⟩ := lowest.1
  refine ⟨lowest,?_,?_⟩
  · intro fuel _ ran
    obtain ⟨more,full,below⟩ := saturated computes monotone based closed ran
    exact below.antisymm (lowest.2 ⟨more,full⟩)
  · intro finite
    refine ⟨(least F (keysOf rowKey anchor) \ keysOf rowKey anchor).ncard+1,?_⟩
    intro _ enough
    exact saturateEnds computes monotone finite based closed enough

def node (n : Int64) : Row := [("n",.integer n)]

/- `SELECT e.target FROM edges e JOIN reached r ON e.source = r.n`. -/
def targets (edges : List (Int64 × Int64)) (reached : List Row) : Eval (List Row) :=
  .ok ((edges.filter fun e => reached.any fun row => rowKey row = rowKey (node e.1)).map fun e => node e.2)

def targetKeys (edges : List (Int64 × Int64)) (s : Set Bytes) : Set Bytes :=
  {k | ∃ e ∈ edges, rowKey (node e.1) ∈ s ∧ rowKey (node e.2) = k}

theorem targetsCompute (edges) : Computes rowKey (targets edges) (targetKeys edges) := by
  intro _
  refine ⟨_,rfl,?_⟩
  ext k
  simp [keysOf,targetKeys,and_assoc]

theorem targetKeysMonotone (edges) : Monotone (targetKeys edges) := by
  rintro s t below k ⟨e,edge,inside,same⟩
  exact ⟨e,edge,below inside,same⟩

/- A cycle of two nodes that is entered from a third one. -/
theorem cycleEnds : ∃ n, ∀ fuel, n ≤ fuel → ∃ rows,
    materializeRecursive (.ok [node 3]) (targets [(1,2),(2,1),(3,1)]) fuel = .ok rows := by
  refine (recursiveLeast (targetKeysMonotone _) (targetsCompute _) [node 3]).2.2 ?_
  refine Set.Finite.subset (Set.toFinite {rowKey (node 1),rowKey (node 2),rowKey (node 3)}) ?_
  refine Set.sInter_subset_of_mem ⟨?_,?_⟩
  · rintro k mem
    simp only [keysOf,map_cons,map_nil,mem_singleton,Set.mem_ofPred_eq] at mem
    simp [mem]
  · rintro k ⟨e,edge,_,same⟩
    simp only [mem_cons,not_mem_nil,or_false] at edge
    rcases edge with rfl | rfl | rfl <;> simp [← same]

end NoeDB.RecursiveCte
