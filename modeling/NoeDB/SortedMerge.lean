import Mathlib.Data.List.Sort
import Mathlib.Data.List.ProdSigma
import Mathlib.Data.List.Perm.Basic
import Mathlib.Algebra.Order.BigOperators.Group.List
import Mathlib.Algebra.Order.Group.Nat
import Mathlib.Algebra.GroupWithZero.Nat
import Mathlib.Order.WithBot

/-! Joins of two lists by a key: the pairs of all rows with equal keys, the two-pointer merge
of sorted lists that moves only the right pointer on a match, and when both give as much. -/
namespace NoeDB.SortedMerge
open List

section
variable {α β κ : Type} [LinearOrder κ] (leftKey : α → κ) (rightKey : β → κ)

def mergeRow (a : α) (next : List β → List (α × β)) : List β → List (α × β)
  | [] => []
  | b :: rest =>
      if leftKey a < rightKey b then next (b :: rest)
      else if rightKey b < leftKey a then mergeRow a next rest
      else (a,b) :: mergeRow a next rest

def merge : List α → List β → List (α × β)
  | [] => fun _ => []
  | a :: rest => mergeRow leftKey rightKey a (merge rest)

def firsts (left : List α) (right : List β) : List (α × β) :=
  right.filterMap fun b => (left.find? fun a => leftKey a = rightKey b).map fun a => (a,b)

variable {leftKey rightKey}

theorem mergeRowFirsts (next : ∀ {right : List β}, right.Pairwise (rightKey · ≤ rightKey ·) →
    merge leftKey rightKey left right = firsts leftKey rightKey left right)
    (least : ∀ a' ∈ left, leftKey a ≤ leftKey a') (sorted : right.Pairwise (rightKey · ≤ rightKey ·)) :
    mergeRow leftKey rightKey a (merge leftKey rightKey left) right = firsts leftKey rightKey (a :: left) right := by
  induction right with
  | nil => rfl
  | cons b _ ih =>
    have later := ih sorted.of_cons
    unfold mergeRow
    split
    · rename_i below
      -- the left row is below every right row that is still to come
      rw [next sorted]
      refine filterMap_congr fun b' mem => ?_
      have above : leftKey a < rightKey b' := by
        cases mem_cons.mp mem with
        | inl same => exact same ▸ below
        | inr mem => exact lt_of_lt_of_le below ((pairwise_cons.mp sorted).1 b' mem)
      simp [above.ne,decide_false]
    · split
      · rename_i above
        have missing : ((a :: left).find? fun a' => leftKey a' = rightKey b) = none := by
          refine List.find?_eq_none.mpr fun a' mem => ?_
          cases mem_cons.mp mem with
          | inl same => simp [same,above.ne']
          | inr mem => simp [(lt_of_lt_of_le above (least a' mem)).ne']
        simp only [firsts,filterMap_cons,missing,Option.map_none]
        exact later
      · rename_i notBelow notAbove
        have same : leftKey a = rightKey b := le_antisymm (not_lt.mp notAbove) (not_lt.mp notBelow)
        have found : ((a :: left).find? fun a' => leftKey a' = rightKey b) = some a := by simp [same]
        simp only [firsts,filterMap_cons,found,Option.map_some]
        exact congrArg _ later

theorem mergeFirsts (sortedLeft : left.Pairwise (leftKey · ≤ leftKey ·))
    (sortedRight : right.Pairwise (rightKey · ≤ rightKey ·)) :
    merge leftKey rightKey left right = firsts leftKey rightKey left right := by
  induction left generalizing right with
  | nil => simp [merge,firsts]
  | cons _ _ ih =>
    exact mergeRowFirsts (ih sortedLeft.of_cons) (pairwise_cons.mp sortedLeft).1 sortedRight

theorem firstsMet {met : α → β → Bool}
    (keyed : ∀ b ∈ right, (∀ a, met a b = false) ∨ ∀ a, met a b = true ↔ leftKey a = rightKey b) :
    ((firsts leftKey rightKey left right).filter fun p => met p.1 p.2) =
      right.flatMap fun b => ((left.find? fun a => met a b).map fun a => (a,b)).toList := by
  unfold firsts
  rw [filter_filterMap,← filterMap_eq_flatMap_toList]
  refine filterMap_congr fun b mem => ?_
  cases keyed b mem with
  | inl never =>
    have missing : (left.find? fun a => met a b) = none := List.find?_eq_none.mpr fun a _ => by simp [never a]
    rw [missing]
    cases left.find? fun a => decide (leftKey a = rightKey b) <;> simp [never]
  | inr same =>
    have tests : (fun a => met a b) = fun a => decide (leftKey a = rightKey b) := by
      funext a
      rw [Bool.eq_iff_iff,same a,decide_eq_true_eq]
    rw [← tests]
    cases found : left.find? fun a => met a b with
    | none => rfl
    | some =>
      have chosen := List.find?_some found
      simp [Option.map_some,Option.filter_some,chosen]

end

section
variable {α κ : Type} [LinearOrder κ] (key : α → κ)

def sorted (l : List α) : List α := l.insertionSort fun a b => key a ≤ key b

variable {key}

theorem sortedPairwise (l) : (sorted key l).Pairwise (key · ≤ key ·) := by
  exact pairwise_insertionSort _ l

theorem sortedPerm (l) : (sorted key l).Perm l := perm_insertionSort _ l

theorem findInserted (a l k) :
    ((l.orderedInsert (fun a b => key a ≤ key b) a).find? fun b => key b = k) = (a :: l).find? fun b => key b = k := by
  induction l with
  | nil => rfl
  | cons b _ ih =>
    rw [orderedInsert_cons]
    split
    · rfl
    · rename_i below
      rw [List.find?_cons,ih]
      simp only [List.find?_cons]
      by_cases here : key b = k
      · have other : key a ≠ k := fun same => below (same.trans here.symm).le
        simp [here,other]
      · simp [here]

theorem findSorted (l k) : ((sorted key l).find? fun b => key b = k) = l.find? fun b => key b = k := by
  induction l with
  | nil => rfl
  | cons a rest ih =>
    show ((List.orderedInsert _ a (sorted key rest)).find? _) = _
    rw [findInserted,List.find?_cons,List.find?_cons,ih]

end

section
variable {α β : Type}

theorem swapPairs (met : α → β → Bool) (left : List α) (right : List β) :
    (left.flatMap fun a => (right.filter fun b => met a b).map fun b => (a,b)).Perm
      (right.flatMap fun b => (left.filter fun a => met a b).map fun a => (a,b)) := by
  induction left with
  | nil => simp
  | cons a rest ih =>
    have split : (fun b => ((a :: rest).filter fun a => met a b).map fun a => (a,b)) =
        fun b => (if met a b then [(a,b)] else []) ++ (rest.filter fun a => met a b).map fun a => (a,b) := by
      funext b
      rw [filter_cons]
      split <;> rfl
    have first : ((right.filter fun b => met a b).map fun b => (a,b)) = right.flatMap fun b => if met a b then [(a,b)] else [] := by
      clear ih split
      induction right with
      | nil => rfl
      | cons _ _ ih =>
        rw [filter_cons,flatMap_cons,← ih]
        split <;> rfl
    rw [split,flatMap_cons,first]
    exact (ih.append_left _).trans (flatMap_append_perm right _ _)

theorem wholeOfSum {part whole : β → Nat} {right : List β} (below : ∀ b ∈ right, part b ≤ whole b)
    (same : (right.map part).sum = (right.map whole).sum) : ∀ b ∈ right, part b = whole b := by
  induction right with
  | nil => simp
  | cons _ rest ih =>
    obtain ⟨_,later⟩ := forall_mem_cons.mp below
    have rests : (rest.map part).sum ≤ (rest.map whole).sum := sum_le_sum later
    simp only [map_cons,sum_cons] at same
    exact forall_mem_cons.mpr ⟨by omega,ih later (by omega)⟩

theorem agreeOfImages [DecidableEq β] {imageTest : β → Bool} {l : List α}
    (same : ((l.filter test).map image).Perm ((l.map image).filter imageTest)) :
    ∀ a ∈ l, test a = imageTest (image a) := by
  intro a mem
  have counted : (l.filter fun c => decide (image c = image a) && test c).length =
      (l.filter fun c => decide (image c = image a) && imageTest (image c)).length := by
    have filtered := (same.filter fun b => b = image a).length_eq
    rw [filter_map,filter_map,filter_map] at filtered
    simpa [filter_filter,Function.comp_def] using filtered
  cases kept : imageTest (image a) with
  | false =>
    have none' : (l.filter fun c => decide (image c = image a) && imageTest (image c)) = [] := by
      refine filter_eq_nil_iff.mpr fun c _ found => ?_
      rw [Bool.and_eq_true,decide_eq_true_eq] at found
      rw [found.1,kept] at found
      cases found.2
    rw [none',length_nil,length_eq_zero_iff,filter_eq_nil_iff] at counted
    simpa using counted a mem
  | true =>
    have all : (l.filter fun c => decide (image c = image a) && imageTest (image c)) =
        l.filter fun c => decide (image c = image a) := by
      refine filter_congr fun c _ => ?_
      by_cases there : image c = image a
      · simp [there,kept]
      · simp [there]
    have inner : (l.filter fun c => decide (image c = image a) && test c) =
        (l.filter fun c => decide (image c = image a)).filter test := by
      rw [filter_filter]
      exact filter_congr fun c _ => Bool.and_comm _ _
    rw [all,inner] at counted
    have whole := filter_sublist.eq_of_length counted
    have inside : a ∈ l.filter fun c => decide (image c = image a) := mem_filter.mpr ⟨mem,by simp⟩
    rw [← whole] at inside
    exact (mem_filter.mp inside).2

end
end NoeDB.SortedMerge
