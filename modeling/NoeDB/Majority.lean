import Mathlib.Data.Finset.Card
import Mathlib.Data.List.Basic

/-! Majorities of a member list. The list may repeat a member: a repeated member
weighs as often as it is listed, for every majority alike. -/
namespace NoeDB.Majority
open List
variable {ν : Type} [DecidableEq ν]

def Holds (members : List ν) (group : Finset ν) : Prop :=
  members.length < 2 * members.countP (· ∈ group)

theorem countBoth (members : List ν) (a b : Finset ν) : members.countP (· ∈ a) + members.countP (· ∈ b) ≤
      members.length + members.countP (· ∈ a ∩ b) := by
  induction members with
  | nil => simp
  | cons v _ ih =>
    simp only [countP_cons,length_cons]
    by_cases left : v ∈ a <;> by_cases right : v ∈ b <;>
      simp only [left,right,Finset.mem_inter,and_self,and_false,false_and,decide_true,
        decide_false,if_true,Bool.false_eq_true,if_false] at ih ⊢ <;> omega

theorem meet {a b : Finset ν} (left : Holds members a) (right : Holds members b) : ∃ v ∈ members, v ∈ a ∧ v ∈ b := by
  have both := countBoth members a b
  have some : 0 < members.countP (· ∈ a ∩ b) := by
    unfold Holds at left right
    omega
  obtain ⟨v,mem,inside⟩ := countP_pos_iff.mp some
  exact ⟨v,mem,Finset.mem_inter.mp (of_decide_eq_true inside)⟩

theorem cardLeCount {members : List ν} {group : Finset ν} (listed : ∀ v ∈ group, v ∈ members) :
    group.card ≤ members.countP (· ∈ group) := by
  have inside : group ⊆ (members.filter (fun v => v ∈ group)).toFinset := by
    intro v mem
    simp [mem,listed v mem]
  calc group.card ≤ (members.filter (fun v => v ∈ group)).toFinset.card := Finset.card_le_card inside
    _ ≤ (members.filter (fun v => v ∈ group)).length := toFinset_card_le _
    _ = members.countP (· ∈ group) := countP_eq_length_filter.symm

theorem ofCard {members : List ν} {group : Finset ν} (listed : ∀ v ∈ group, v ∈ members)
    (enough : members.length / 2 + 1 ≤ group.card) : Holds members group := by
  have weight := cardLeCount listed
  unfold Holds
  omega

theorem ofCount {p : ν → Bool}
    (enough : members.length < 2 * members.countP p) : Holds members (members.filter p).toFinset := by
  have same : members.countP (· ∈ (members.filter p).toFinset) = members.countP p := by
    refine countP_congr fun v mem => ?_
    simp [mem]
  unfold Holds
  omega

theorem whole {members : List ν} (some : members ≠ []) : Holds members members.toFinset := by
  have all : members.countP (· ∈ members.toFinset) = members.length := by
    rw [countP_eq_length]
    intro v mem
    simpa using mem
  have positive := length_pos_iff.mpr some
  unfold Holds
  omega

theorem countFirst {members : List ν} (listed : x ∈ members) (p : ν → Bool) :
    1 + members.countP (fun v => v ≠ x ∧ p v = true) ≤ members.countP (fun v => v = x ∨ p v = true) := by
  induction members with
  | nil => cases listed
  | cons v rest ih =>
    rw [countP_cons,countP_cons]
    by_cases same : v = x
    · have more : rest.countP (fun v => v ≠ x ∧ p v = true) ≤ rest.countP (fun v => v = x ∨ p v = true) := by
        refine countP_mono_left fun w _ both => ?_
        simp only [decide_eq_true_eq] at both ⊢
        exact .inr both.2
      simp only [same,ne_eq,not_true_eq_false,false_and,decide_false,Bool.false_eq_true,if_false,
        true_or,decide_true,if_true]
      simp only [ne_eq] at more
      omega
    · have later := ih ((mem_cons.mp listed).resolve_left (fun eq => same eq.symm))
      by_cases held : p v = true
      · simp only [same,held,ne_eq,not_false_eq_true,and_self,decide_true,if_true,or_true] at later ⊢
        omega
      · simp only [same,held,ne_eq,and_false,decide_false,Bool.false_eq_true,if_false, or_self] at later ⊢
        omega

end NoeDB.Majority
