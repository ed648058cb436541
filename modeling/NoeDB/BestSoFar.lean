import Mathlib.Order.Lattice
import Mathlib.Data.List.Basic

/-! One pass that keeps the best element seen so far: an admitted element replaces it
only where its rank is strictly greater, so that of equal ones the first stays. -/
namespace NoeDB.BestSoFar
open List Option
variable {α τ : Type} [LinearOrder τ] (admitted : α → Bool) (rank : α → τ)

def keep (best : Option α) (a : α) : Option α :=
  if admitted a then
    match best with
    | none => some a
    | some b => if rank b < rank a then some a else some b
  else best

def bestFrom (best : Option α) (items : List α) : Option α := items.foldl (keep admitted rank) best

def bestOf (items : List α) : Option α := bestFrom admitted rank none items

def better : Option α → Option α → Option α
  | none,second => second
  | some a,none => some a
  | some a,some b => if rank a < rank b then some b else some a

variable {admitted rank}

@[simp] theorem betterNone (first) : better rank first none = first := by
  cases first <;> rfl

@[simp] theorem noneBetter (second) : better rank none second = second := rfl

theorem betterLt (less : rank a < rank b) : better rank (some a) (some b) = some b := if_pos less

theorem betterLe (most : rank b ≤ rank a) : better rank (some a) (some b) = some a := if_neg (not_lt.mpr most)

theorem betterAssoc (a b c) : better rank (better rank a b) c = better rank a (better rank b c) := by
  cases a with
  | none => rfl
  | some a =>
    cases b with
    | none => rfl
    | some b =>
      cases c with
      | none => simp
      | some c =>
        rcases lt_or_ge (rank a) (rank b) with ab | ba
        · rw [betterLt ab]
          rcases lt_or_ge (rank b) (rank c) with bc | cb
          · rw [betterLt bc,betterLt (lt_trans ab bc)]
          · rw [betterLe cb,betterLt ab]
        · rw [betterLe ba]
          rcases lt_or_ge (rank b) (rank c) with bc | cb
          · rw [betterLt bc]
          · rw [betterLe cb,betterLe ba,betterLe (le_trans cb ba)]

theorem keepBetter (yes : admitted a = true) : keep admitted rank best a = better rank best (some a) := by
  cases best <;> simp [keep,better,yes]

theorem bestFromBetter (best items) :
    bestFrom admitted rank best items = better rank best (bestOf admitted rank items) := by
  induction items generalizing best with
  | nil => cases best <;> rfl
  | cons a _ ih =>
    have here := ih (keep admitted rank best a)
    have fresh := ih (keep admitted rank none a)
    simp only [bestFrom,bestOf,foldl_cons] at here fresh ⊢
    rw [here,fresh]
    cases yes : admitted a with
    | false => simp [keep,yes,better]
    | true => rw [keepBetter yes,keepBetter yes,betterAssoc,betterAssoc]; rfl

theorem bestFromAppend (best first second) : bestFrom admitted rank best (first ++ second) =
      bestFrom admitted rank (bestFrom admitted rank best first) second :=
  foldl_append

theorem bestOfAppend (first second) : bestOf admitted rank (first ++ second) =
      better rank (bestOf admitted rank first) (bestOf admitted rank second) := by
  rw [bestOf,bestFromAppend,bestFromBetter]
  rfl

theorem bestOfCons (a rest) : bestOf admitted rank (a :: rest) =
      better rank (if admitted a then some a else none) (bestOf admitted rank rest) := by
  rw [← singleton_append,bestOfAppend]
  rfl

structure Best (admitted : α → Bool) (rank : α → τ) (items : List α) (a : α) : Prop where
  mem : a ∈ items
  admits : admitted a = true
  top : ∀ b ∈ items, admitted b = true → rank b ≤ rank a

theorem bestOfNone : bestOf admitted rank items = none ↔ ∀ a ∈ items, admitted a = false := by
  induction items with
  | nil => simp [bestOf,bestFrom]
  | cons a rest ih =>
    rw [bestOfCons,forall_mem_cons,← ih]
    cases yes : admitted a with
    | false => simp
    | true =>
      cases later : bestOf admitted rank rest with
      | none => simp
      | some =>
        simp only [if_true,better]
        split <;> simp

theorem bestOfSome (found : bestOf admitted rank items = some a) : Best admitted rank items a := by
  induction items generalizing a with
  | nil => cases found
  | cons b rest ih =>
    rw [bestOfCons] at found
    cases later : bestOf admitted rank rest with
    | none =>
      rw [later,betterNone,ite_none_right_eq_some] at found
      obtain ⟨yes,same⟩ := found
      cases some.inj same
      refine ⟨mem_cons_self,yes,?_⟩
      intro c mem admits
      rcases mem_cons.mp mem with here | there
      · exact le_of_eq (here ▸ rfl)
      · simp [bestOfNone.mp later c there] at admits
    | some c =>
      have rest' := ih later
      rw [later] at found
      cases yes : admitted b with
      | false =>
        simp only [yes,Bool.false_eq_true,if_false,noneBetter] at found
        cases some.inj found
        refine ⟨mem_cons_of_mem _ rest'.mem,rest'.admits,?_⟩
        intro d mem admits
        rcases mem_cons.mp mem with here | there
        · simp [here,yes] at admits
        · exact rest'.top d there admits
      | true =>
        simp only [yes,if_true] at found
        rcases lt_or_ge (rank b) (rank c) with less | most
        · rw [betterLt less] at found
          cases some.inj found
          refine ⟨mem_cons_of_mem _ rest'.mem,rest'.admits,?_⟩
          intro d mem admits
          rcases mem_cons.mp mem with here | there
          · exact le_of_lt (here ▸ less)
          · exact rest'.top d there admits
        · rw [betterLe most] at found
          cases some.inj found
          refine ⟨mem_cons_self,yes,?_⟩
          intro d mem admits
          rcases mem_cons.mp mem with here | there
          · exact le_of_eq (here ▸ rfl)
          · exact le_trans (rest'.top d there admits) most

theorem bestOfUntied (untied : ∀ b ∈ items, a ∈ items → rank b = rank a → b = a) :
    bestOf admitted rank items = some a ↔ Best admitted rank items a := by
  refine ⟨bestOfSome,fun best => ?_⟩
  cases found : bestOf admitted rank items with
  | none =>
    have hidden := bestOfNone.mp found a best.mem
    rw [best.admits] at hidden
    cases hidden
  | some b =>
    have chosen := bestOfSome found
    have same := le_antisymm (best.top b chosen.mem chosen.admits) (chosen.top a best.mem best.admits)
    rw [untied b chosen.mem best.mem same]

theorem bestOfAt (there : ∃ a ∈ items, admitted a = true ∧ rank a = most)
    (top : ∀ a ∈ items, admitted a = true → rank a ≤ most) :
    bestOf admitted rank items = items.find? fun a => admitted a && decide (rank a = most) := by
  induction items with
  | nil => simp at there
  | cons a rest ih =>
    obtain ⟨here,later⟩ := forall_mem_cons.mp top
    rw [bestOfCons,List.find?_cons]
    by_cases first : admitted a = true ∧ rank a = most
    · simp only [first.1,first.2,decide_true,Bool.and_self,if_true]
      cases found : bestOf admitted rank rest with
      | none => rfl
      | some b => exact betterLe (first.2 ▸ later b (bestOfSome found).mem (bestOfSome found).admits)
    · have tail : ∃ b ∈ rest, admitted b = true ∧ rank b = most := by
        obtain ⟨b,mem,yes⟩ := there
        rcases mem_cons.mp mem with rfl | old
        · exact absurd yes first
        · exact ⟨b,old,yes⟩
      have skipped : (admitted a && decide (rank a = most)) = false := by
        simpa using fun yes => fun eq => first ⟨yes,eq⟩
      simp only [skipped]
      rw [← ih tail later]
      cases yes : admitted a with
      | false => rfl
      | true =>
        obtain ⟨b,mem,admits,ranked⟩ := tail
        cases found : bestOf admitted rank rest with
        | none => simp [bestOfNone.mp found b mem] at admits
        | some c =>
          have less : rank a < rank c := by
            have below := lt_of_le_of_ne (here yes) fun eq => first ⟨yes,eq⟩
            exact lt_of_lt_of_le below (ranked ▸ (bestOfSome found).top b mem admits)
          exact betterLt less

theorem findDropped {β : Type} {g stays} {test : α → Bool} {items : List β}
    (failing : ∀ r ∈ items, stays r = false → ∀ a ∈ g r, test a = false) :
    ((items.filter stays).filterMap g).find? test = (items.filterMap g).find? test := by
  induction items with
  | nil => rfl
  | cons r _ ih =>
    obtain ⟨here,later⟩ := forall_mem_cons.mp failing
    cases kept : stays r with
    | true =>
      rw [filter_cons_of_pos kept]
      cases item : g r with
      | none => rw [filterMap_cons_none item,filterMap_cons_none item,ih later]
      | some =>
        rw [filterMap_cons_some item,filterMap_cons_some item,List.find?_cons,List.find?_cons,ih later]
    | false =>
      rw [filter_cons_of_neg (by simp [kept]),ih later]
      cases item : g r with
      | none => rw [filterMap_cons_none item]
      | some a => rw [filterMap_cons_some item,List.find?_cons_of_neg (by simp [here kept a item])]

theorem bestOfDropped {β : Type} {g stays} {items : List β} {tail : List α}
    (outranked : ∀ r ∈ items, stays r = false → ∀ a ∈ g r, admitted a = true →
      ∃ b ∈ items.filterMap g ++ tail, admitted b = true ∧ rank a < rank b) :
    bestOf admitted rank ((items.filter stays).filterMap g ++ tail) =
      bestOf admitted rank (items.filterMap g ++ tail) := by
  have subset : ∀ a ∈ (items.filter stays).filterMap g ++ tail, a ∈ items.filterMap g ++ tail := by
    intro a mem
    rcases mem_append.mp mem with first | second
    · obtain ⟨r,kept,item⟩ := mem_filterMap.mp first
      exact mem_append_left _ (mem_filterMap.mpr ⟨r,mem_of_mem_filter kept,item⟩)
    · exact mem_append_right _ second
  cases found : bestOf admitted rank (items.filterMap g ++ tail) with
  | none => exact bestOfNone.mpr fun a mem => bestOfNone.mp found a (subset a mem)
  | some best =>
    obtain ⟨mem,admits,top⟩ := bestOfSome found
    have kept : best ∈ (items.filter stays).filterMap g ++ tail := by
      rcases mem_append.mp mem with first | second
      · obtain ⟨r,inside,item⟩ := mem_filterMap.mp first
        cases here : stays r with
        | true =>
          exact mem_append_left _ (mem_filterMap.mpr ⟨r,mem_filter.mpr ⟨inside,here⟩,item⟩)
        | false =>
          obtain ⟨b,other,yes,above⟩ := outranked r inside here best item admits
          exact absurd (top b other yes) (not_le.mpr above)
      · exact mem_append_right _ second
    rw [bestOfAt ⟨best,kept,admits,rfl⟩ fun a inside => top a (subset a inside),List.find?_append,
      findDropped,← List.find?_append,← bestOfAt ⟨best,mem,admits,rfl⟩ top,found]
    intro r inside gone a item
    have below : admitted a = true → rank a ≠ rank best := by
      intro yes eq
      obtain ⟨b,other,yes',above⟩ := outranked r inside gone a item yes
      exact absurd (eq ▸ top b other yes') (not_le.mpr above)
    simpa using below

end NoeDB.BestSoFar
