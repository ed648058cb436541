import Mathlib.Data.List.Basic
import Mathlib.Logic.Function.Basic

/-! Ledgers of terms. Each term has one list of entries, which grows at its end and
begins with whatever its owner brought along. A log is consistent with the ledgers
if each of its entries stands behind the same entries as in the ledger of the
entry's own term; two consistent logs agree up to any entry of one term. -/
namespace NoeDB.TermLedger
open List Function
variable {E : Type} (term : E → Nat)

def Consistent (led : Nat → List E) (log : List E) : Prop :=
  ∀ j e, log[j]? = some e → log.take (j+1) = (led (term e)).take (j+1)

def Coherent (led : Nat → List E) : Prop := ∀ t, Consistent term led (led t)

def Grows (led led' : Nat → List E) : Prop := ∀ t, led t <+: led' t

variable {term}

theorem matching (left : Consistent term led a)
    (right : Consistent term led b) (atA : a[j]? = some x) (atB : b[j]? = some y)
    (same : term x = term y) : a.take (j+1) = b.take (j+1) := by
  rw [left j x atA,right j y atB,same]

theorem Consistent.take (whole : Consistent term led log) (k) : Consistent term led (log.take k) := by
  intro j e found
  rw [List.getElem?_take] at found
  split at found
  · rename_i inside
    rw [take_take,Nat.min_eq_left (by omega)]
    exact whole j e found
  · cases found

theorem Consistent.ofPrefix (whole : Consistent term led b) (front : a <+: b) : Consistent term led a := by
  rw [List.prefix_iff_eq_take.mp front]
  exact whole.take _

theorem Consistent.reaches (whole : Consistent term led log) (found : log[j]? = some e) : j < (led (term e)).length := by
  have same := congrArg List.length (whole j e found)
  have inside : j < log.length := by
    by_contra h
    rw [List.getElem?_eq_none (by omega)] at found
    cases found
  rw [length_take,length_take] at same
  omega

theorem Consistent.atLedger (whole : Consistent term led log)
    {j : Nat} (found : log[j]? = some e) : (led (term e))[j]? = some e := by
  have same := congrArg (fun l : List E => l[j]?) (whole j e found)
  simp only [List.getElem?_take,Nat.lt_succ_self,if_true] at same
  rw [← same]
  exact found

theorem Consistent.grow (whole : Consistent term led log) (grows : Grows led led') : Consistent term led' log := by
  intro j e found
  have reach := whole.reaches found
  obtain ⟨_,eq⟩ := grows (term e)
  rw [whole j e found,← eq,take_append_of_le_length (by omega)]

theorem growsUpdate {log : List E} (front : led t <+: log) : Grows led (update led t log) := by
  intro s
  by_cases same : s = t
  · subst same
    rwa [update_self]
  · have kept : update led t log s = led s := update_of_ne same log led
    exact kept.symm ▸ List.prefix_rfl

theorem coherentUpdate {log : List E} (coherent : Coherent term led)
    (front : led t <+: log) (own : Consistent term (update led t log) log) :
    Coherent term (update led t log) := by
  intro s
  by_cases same : s = t
  · subst same
    rwa [update_self]
  · rw [update_of_ne same]
    exact (coherent s).grow (growsUpdate front)

theorem coherentStart {log : List E} (coherent : Coherent term led)
    (fresh : led t = []) (own : Consistent term led log) : Coherent term (update led t log) := by
  have front : led t <+: log := fresh ▸ List.nil_prefix
  exact coherentUpdate coherent front (own.grow (growsUpdate front))

theorem coherentWrite {e : E} (coherent : Coherent term led)
    (stamp : term e = t) : Coherent term (update led t (led t ++ [e])) := by
  have front : led t <+: led t ++ [e] := List.prefix_append _ _
  refine coherentUpdate coherent front ?_
  intro j x found
  by_cases last : j < (led t).length
  · rw [List.getElem?_append_left last] at found
    have old := ((coherent t).grow (growsUpdate front)) j x found
    rw [take_append_of_le_length (by omega),old]
  · have bound : j < (led t ++ [e]).length := by
      by_contra h
      rw [List.getElem?_eq_none (by omega)] at found
      cases found
    rw [length_append,length_singleton] at bound
    have here : j = (led t).length := by omega
    subst here
    rw [List.getElem?_concat_length] at found
    cases found
    rw [stamp,update_self]

end NoeDB.TermLedger
