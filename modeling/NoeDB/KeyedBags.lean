import Mathlib.Data.Multiset.Dedup
import Mathlib.Data.Multiset.UnionInter

/-! Lists whose elements are compared by a key: the first element of every key, and the
elements drawn, or not drawn, against a supply of keys. Two keys that tell the same elements
apart select the same ones. -/
namespace NoeDB.KeyedBags
open List
variable {α κ μ : Type}

def Alike (key : α → κ) (value : α → μ) (l : List α) : Prop := ∀ a ∈ l, ∀ b ∈ l, key a = key b ↔ value a = value b

section
variable {key : α → κ} {value : α → μ} {l part : List α}

theorem Alike.subset (alike : Alike key value l) (sub : part ⊆ l) : Alike key value part :=
  fun a inside b other => alike a (sub inside) b (sub other)

theorem memAlike (alike : Alike key value l) (sub : part ⊆ l) (mem : a ∈ l) :
    key a ∈ part.map key ↔ value a ∈ part.map value := by
  simp only [mem_map]
  constructor <;> rintro ⟨b,inside,same⟩
  · exact ⟨b,inside,(alike b (sub inside) a mem).mp same⟩
  · exact ⟨b,inside,(alike b (sub inside) a mem).mpr same⟩

end

variable [DecidableEq κ] [DecidableEq μ]

def firstSeen (key : α → κ) : List κ → List α → List α
  | _,[] => []
  | seen,a :: rest => if key a ∈ seen then firstSeen key seen rest else a :: firstSeen key (key a :: seen) rest

def supplyOf (keys : List κ) : κ → Nat := fun k => keys.count k

def spend (supply : κ → Nat) (k : κ) : κ → Nat := fun other => if other = k then supply k-1 else supply other

def drawn (key : α → κ) : (κ → Nat) → List α → List α
  | _,[] => []
  | supply,a :: rest =>
      if 0 < supply (key a) then a :: drawn key (spend supply (key a)) rest else drawn key supply rest

def undrawn (key : α → κ) : (κ → Nat) → List α → List α
  | _,[] => []
  | supply,a :: rest =>
      if 0 < supply (key a) then undrawn key (spend supply (key a)) rest else a :: undrawn key supply rest

variable {key : α → κ} {value : α → μ}

theorem countAlike (alike : Alike key value l) (sub : part ⊆ l) (mem : a ∈ l) :
    supplyOf (part.map key) (key a) = supplyOf (part.map value) (value a) := by
  unfold supplyOf
  induction part with
  | nil => rfl
  | cons b _ ih =>
    obtain ⟨here,later⟩ := cons_subset.mp sub
    have same := alike b here a mem
    simp [map_cons,count_cons,ih later,beq_iff_eq,same]

theorem firstSeenAlike {before l} (alike : Alike key value (before ++ l)) :
    firstSeen key (before.map key) l = firstSeen value (before.map value) l := by
  induction l generalizing before with
  | nil => rfl
  | cons a _ ih =>
    have known : key a ∈ before.map key ↔ value a ∈ before.map value :=
      memAlike alike (subset_append_left _ _) (by simp)
    unfold firstSeen
    simp only [known]
    split
    · refine ih (alike.subset fun b mem => ?_)
      simp only [mem_append,mem_cons] at mem ⊢
      exact mem.imp_right .inr
    · refine congrArg (a :: ·) (@ih (a :: before) (alike.subset fun b mem => ?_))
      simp only [cons_append,mem_cons,mem_append] at mem ⊢
      exact or_left_comm.mp mem

theorem spendAlike (alike : Alike key value l) (same : ∀ a ∈ l, supply (key a) = stock (value a)) (mem : first ∈ l) :
    ∀ a ∈ l, spend supply (key first) (key a) = spend stock (value first) (value a) := by
  intro a inside
  unfold spend
  simp [alike a inside first mem,same a inside,same first mem]

theorem splitAlike (alike : Alike key value l) (same : ∀ a ∈ l, supply (key a) = stock (value a)) :
    drawn key supply l = drawn value stock l ∧ undrawn key supply l = undrawn value stock l := by
  induction l generalizing supply stock with
  | nil => exact ⟨rfl,rfl⟩
  | cons a rest ih =>
    have tail := alike.subset (subset_cons_self a rest)
    have spent := spendAlike alike same mem_cons_self
    unfold drawn undrawn
    rw [same a mem_cons_self]
    split
    · obtain ⟨taken,left⟩ := ih tail fun b mem => spent b (mem_cons_of_mem _ mem)
      exact ⟨by rw [taken],left⟩
    · obtain ⟨taken,left⟩ := ih tail fun b mem => same b (mem_cons_of_mem _ mem)
      exact ⟨taken,by rw [left]⟩

theorem firstSeenSame (same : ∀ k, k ∈ seen ↔ k ∈ seen') (l) : firstSeen key seen l = firstSeen key seen' l := by
  induction l generalizing seen seen' with
  | nil => rfl
  | cons a _ ih =>
    have grown : ∀ k, k ∈ key a :: seen ↔ k ∈ key a :: seen' := fun k => by simp [mem_cons,same]
    simp [firstSeen,same,ih same,ih grown]

theorem memFirstSeen : k ∈ (firstSeen key seen l).map key ↔ k ∈ l.map key ∧ k ∉ seen := by
  induction l generalizing seen with
  | nil => simp [firstSeen]
  | cons a _ ih =>
    unfold firstSeen
    split
    · rename_i known
      rw [ih,map_cons,mem_cons]
      constructor
      · rintro ⟨inside,fresh⟩
        exact ⟨.inr inside,fresh⟩
      · rintro ⟨inside,fresh⟩
        refine ⟨inside.resolve_left fun same => ?_,fresh⟩
        exact fresh (same ▸ known)
    · rename_i fresh
      rw [map_cons,mem_cons,ih,map_cons,mem_cons,mem_cons]
      by_cases same : k = key a
      · simp [same,fresh]
      · simp [same]

theorem nodupFirstSeen (seen l) : ((firstSeen key seen l).map key).Nodup := by
  induction l generalizing seen with
  | nil => exact nodup_nil
  | cons _ _ ih =>
    unfold firstSeen
    split
    · exact ih seen
    · rw [map_cons,nodup_cons]
      refine ⟨fun mem => ?_,ih _⟩
      exact (memFirstSeen.mp mem).2 mem_cons_self

theorem firstSeenBag (l) : ((firstSeen key [] l).map key : Multiset κ) = Multiset.dedup (l.map key) := by
  refine (Multiset.Nodup.ext (Multiset.coe_nodup.mpr (nodupFirstSeen [] l)) (Multiset.nodup_dedup _)).mpr fun k => ?_
  rw [Multiset.mem_coe,memFirstSeen,Multiset.mem_dedup,Multiset.mem_coe]
  exact ⟨fun both => both.1,fun inside => ⟨inside,not_mem_nil⟩⟩

theorem countDrawn (supply l k) : ((drawn key supply l).map key).count k = min ((l.map key).count k) (supply k) := by
  induction l generalizing supply with
  | nil => simp [drawn]
  | cons a _ ih =>
    unfold drawn
    rw [map_cons,count_cons]
    split
    · rename_i some'
      rw [map_cons,count_cons,ih]
      by_cases same : key a = k
      · subst same
        simp only [spend,beq_self_eq_true,if_true]
        omega
      · have other : k ≠ key a := fun eq => same eq.symm
        simp [spend,same,other]
    · rename_i none'
      rw [ih]
      by_cases same : key a = k
      · subst same
        simp only [beq_self_eq_true,if_true]
        omega
      · simp [same]

theorem splitCount (supply l k) :
    ((drawn key supply l).map key).count k+((undrawn key supply l).map key).count k = (l.map key).count k := by
  induction l generalizing supply with
  | nil => simp [drawn,undrawn]
  | cons a _ ih =>
    unfold drawn undrawn
    split
    · have spent := ih (spend supply (key a))
      simp only [map_cons,count_cons]
      omega
    · have left := ih supply
      simp only [map_cons,count_cons]
      omega

theorem countUndrawn (supply l k) : ((undrawn key supply l).map key).count k = (l.map key).count k-supply k := by
  have both := @splitCount _ _ _ key supply l k
  rw [countDrawn] at both
  omega

theorem drawnBag (l keys) :
    ((drawn key (supplyOf keys) l).map key : Multiset κ) = (l.map key : Multiset κ) ∩ keys := by
  refine Multiset.ext.mpr fun k => ?_
  rw [Multiset.count_inter,Multiset.coe_count,Multiset.coe_count,Multiset.coe_count,countDrawn,supplyOf]

theorem undrawnBag (l keys) :
    ((undrawn key (supplyOf keys) l).map key : Multiset κ) = (l.map key : Multiset κ)-keys := by
  refine Multiset.ext.mpr fun k => ?_
  rw [Multiset.count_sub,Multiset.coe_count,Multiset.coe_count,Multiset.coe_count,countUndrawn,supplyOf]

end NoeDB.KeyedBags
