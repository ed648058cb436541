import NoeDB.BestSoFar

/-! The newest member of a set of stamped items. -/
namespace NoeDB.LatestItem
open BestSoFar
variable {α τ : Type} [LinearOrder τ]

def Latest (stamp : α → τ) (items : α → Prop) : Option α → Prop
  | some a => items a ∧ ∀ b, items b → stamp b ≤ stamp a
  | none => ∀ b, ¬items b

variable {stamp : α → τ} {items part : α → Prop} {found other : Option α}

theorem latestUnique (single : ∀ a b, items a → items b → stamp a = stamp b → a = b)
    (first : Latest stamp items found) (second : Latest stamp items other) : found = other := by
  cases found with
  | none =>
    cases other with
    | none => rfl
    | some b => exact absurd second.1 (first b)
  | some a =>
    cases other with
    | none => exact absurd first.1 (second a)
    | some b =>
      have stamps := le_antisymm (second.2 a first.1) (first.2 b second.1)
      exact congrArg some (single a b first.1 second.1 stamps)

theorem latestCongr (same : ∀ a, items a ↔ part a) : Latest stamp items found ↔ Latest stamp part found := by
  have equal : items = part := funext fun a => propext (same a)
  rw [equal]

theorem latestPart (subset : ∀ a, part a → items a)
    (kept : ∀ a, items a → (∀ b, items b → stamp b ≤ stamp a) → part a) (latest : Latest stamp items found) :
    Latest stamp part found := by
  cases found with
  | none => exact fun b mem => latest b (subset b mem)
  | some a => exact ⟨kept a latest.1 latest.2,fun b mem => latest.2 b (subset b mem)⟩

theorem latestAbove (mem : items a) (above : ∀ b, items b → b = a ∨ stamp b < stamp a) :
    Latest stamp items (some a) := by
  refine ⟨mem,fun b inside => ?_⟩
  rcases above b inside with rfl | less
  · exact le_refl _
  · exact le_of_lt less

theorem latestUnion {added : α → Prop}
    (kept : Latest stamp items found → Latest stamp part found) (subset : ∀ a, part a → items a)
    (latest : Latest stamp (fun a => added a ∨ items a) found) : Latest stamp (fun a => added a ∨ part a) found := by
  cases found with
  | none => exact fun b mem => latest b (mem.imp_right (subset b))
  | some =>
    obtain ⟨mem,top⟩ := latest
    refine ⟨?_,fun b inside => top b (inside.imp_right (subset b))⟩
    rcases mem with new | old
    · exact .inl new
    · exact .inr (kept ⟨old,fun b inside => top b (.inr inside)⟩).1

theorem bestLatest : Latest stamp (fun a => a ∈ list ∧ admitted a = true) (bestOf admitted stamp list) := by
  cases best : bestOf admitted stamp list with
  | none =>
    rintro a ⟨mem,yes⟩
    rw [bestOfNone.mp best a mem] at yes
    cases yes
  | some =>
    obtain ⟨mem,yes,top⟩ := bestOfSome best
    exact ⟨⟨mem,yes⟩,fun b both => top b both.1 both.2⟩

end NoeDB.LatestItem
