import NoeDB.NewestPerKey

/-! What the standard library leaves open: how an unstable sort or selection orders equal
elements, in which order a hash table is walked, and the letter case of characters
outside ASCII. -/
namespace NoeDB.Platform
open NewestPerKey

class Runtime where
  sorter : Sorter
  /- The entries of a hash table in the order they are walked in. -/
  walk : {α : Type} → List α → List α
  walkPerm : ∀ {α : Type} (entries : List α), (walk entries).Perm entries
  /- The elements rearranged so that none before a position is above one after it. -/
  select : {α : Type} → (α → α → Bool) → Nat → List α → List α
  selectPerm : ∀ {α : Type} (le : α → α → Bool) (n : Nat) (l : List α), (select le n l).Perm l
  selectParts : ∀ {α : Type} (le : α → α → Bool) (n : Nat) (l : List α),
    (∀ a b c, le a b = true → le b c = true → le a c = true) → (∀ a b, le a b = true ∨ le b a = true) →
      ∀ a ∈ (select le n l).take n, ∀ b ∈ (select le n l).drop n, le a b = true
  upper : String → String
  lower : String → String

@[reducible] def plain (upper lower : String → String) : Runtime where
  sorter := insertion
  walk entries := entries
  walkPerm _ := .refl _
  select le _ l := insertion.sort le l
  selectPerm le _ l := insertion.perm le l
  selectParts le n l trans total := by
    have sorted := insertion.sorted le l trans total
    rw [← List.take_append_drop n (insertion.sort le l)] at sorted
    exact (List.pairwise_append.mp sorted).2.2
  upper
  lower

end NoeDB.Platform
