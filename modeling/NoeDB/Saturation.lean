import NoeDB.KeyedBags
import Mathlib.Data.Set.Card
import Mathlib.Order.CompletePartialOrder

/-! A list that is fed to a function again and again and takes up the results whose keys it
does not have, until there are none: the least set that holds the first keys and is closed. -/
namespace NoeDB.Saturation
open KeyedBags List Set
variable {α κ ε : Type}

def keysOf (key : α → κ) (items : List α) : Set κ := {k | k ∈ items.map key}

def saturate [DecidableEq κ] (key : α → κ) (run : List α → Except ε (List α)) (exhausted : ε) : Nat → List α → Except ε (List α)
  | 0,_ => .error exhausted
  | fuel+1,acc => do
      let new ← run acc
      let added := firstSeen key (acc.map key) new
      if added.isEmpty then .ok acc else saturate key run exhausted fuel (acc ++ added)

def Computes (key : α → κ) (run : List α → Except ε (List α)) (F : Set κ → Set κ) : Prop :=
  ∀ acc, ∃ new, run acc = .ok new ∧ keysOf key new = F (keysOf key acc)

def least (F : Set κ → Set κ) (base : Set κ) : Set κ := ⋂₀ {s | base ⊆ s ∧ F s ⊆ s}

variable {key : α → κ} {run : List α → Except ε (List α)} {exhausted : ε} {F : Set κ → Set κ} {fuel : Nat}
  {acc items : List α} {s base : Set κ}

theorem leastClosed (monotone : Monotone F) : IsLeast {s | base ⊆ s ∧ F s ⊆ s} (least F base) := by
  have lower : ∀ s, base ⊆ s ∧ F s ⊆ s → least F base ⊆ s := fun s closed => sInter_subset_of_mem closed
  refine ⟨⟨?_,?_⟩,lower⟩
  · exact subset_sInter fun s closed => closed.1
  · exact subset_sInter fun s closed => (monotone (lower s closed)).trans closed.2

theorem keysGrown [DecidableEq κ] (key : α → κ) (acc new) :
    keysOf key (acc ++ firstSeen key (acc.map key) new) = keysOf key acc ∪ keysOf key new := by
  ext k
  simp only [keysOf,mem_ofPred_eq,mem_union,map_append,mem_append,memFirstSeen]
  by_cases known : k ∈ acc.map key <;> simp [known]

variable [DecidableEq κ]

theorem saturateRound (computes : Computes key run F) (exhausted fuel acc) :
    (saturate key run exhausted (fuel+1) acc = .ok acc ∧ F (keysOf key acc) ⊆ keysOf key acc) ∨
      ∃ grown, saturate key run exhausted (fuel+1) acc = saturate key run exhausted fuel grown ∧
        keysOf key grown = keysOf key acc ∪ F (keysOf key acc) ∧ ∃ k ∈ F (keysOf key acc), k ∉ keysOf key acc := by
  obtain ⟨new,ran,keys⟩ := computes acc
  have grown := keysGrown key acc new
  rw [keys] at grown
  simp only [saturate,ran,bind,Except.bind]
  cases added : firstSeen key (acc.map key) new with
  | nil =>
    rw [added,append_nil] at grown
    exact .inl ⟨rfl,union_eq_left.mp grown.symm⟩
  | cons first =>
    rw [added] at grown
    refine .inr ⟨_,rfl,grown,key first,?_⟩
    have member : key first ∈ (firstSeen key (acc.map key) new).map key := by rw [added]; exact mem_cons_self
    obtain ⟨inside,fresh⟩ := memFirstSeen.mp member
    rw [← keys]
    exact ⟨inside,fresh⟩

theorem saturated (computes : Computes key run F) (monotone : Monotone F) (within : keysOf key acc ⊆ s)
    (closed : F s ⊆ s) (ran : saturate key run exhausted fuel acc = .ok items) :
    keysOf key acc ⊆ keysOf key items ∧ F (keysOf key items) ⊆ keysOf key items ∧ keysOf key items ⊆ s := by
  induction fuel generalizing acc with
  | zero => cases ran
  | succ fuel ih =>
    rcases saturateRound computes exhausted fuel acc with ⟨ended,full⟩ | ⟨grown,next,keys,_⟩
    · cases ended.symm.trans ran
      exact ⟨subset_rfl,full,within⟩
    · have inside : keysOf key grown ⊆ s := by
        rw [keys]
        exact union_subset within ((monotone within).trans closed)
      obtain ⟨more,full,below⟩ := ih inside (next.symm.trans ran)
      refine ⟨subset_trans ?_ more,full,below⟩
      rw [keys]
      exact subset_union_left

theorem saturateEnds (computes : Computes key run F) (monotone : Monotone F) (finite : s.Finite)
    (within : keysOf key acc ⊆ s) (closed : F s ⊆ s) (enough : (s \ keysOf key acc).ncard < fuel) :
    ∃ items, saturate key run exhausted fuel acc = .ok items := by
  induction fuel generalizing acc with
  | zero => omega
  | succ fuel ih =>
    rcases saturateRound computes exhausted fuel acc with ⟨ended,_⟩ | ⟨grown,next,keys,k,new,fresh⟩
    · exact ⟨acc,ended⟩
    · have inside : keysOf key grown ⊆ s := by
        rw [keys]
        exact union_subset within ((monotone within).trans closed)
      have fewer : (s \ keysOf key grown).ncard < (s \ keysOf key acc).ncard := by
        refine ncard_lt_ncard ⟨?_,fun back => ?_⟩ finite.sdiff
        · rw [keys]
          exact sdiff_subset_sdiff_right subset_union_left
        · have member : k ∈ s \ keysOf key acc := ⟨closed (monotone within new),fresh⟩
          refine (back member).2 ?_
          rw [keys]
          exact .inr new
      rw [next]
      exact ih inside (by omega)

end NoeDB.Saturation
