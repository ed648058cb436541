import Mathlib.Order.Lattice
import Mathlib.Data.List.Sort

/-! Finite maps kept as lists of entries in strictly ascending key order. -/
namespace NoeDB.OrderedTable
open List
variable {κ ν : Type} [LinearOrder κ]

def Ascending (entries : List (κ × ν)) : Prop := entries.Pairwise fun a b => a.1 < b.1

def findIn (key : κ) : List (κ × ν) → Option ν
  | [] => none
  | (k,v) :: rest => if k = key then some v else findIn key rest

def insertIn (key : κ) (value : ν) : List (κ × ν) → List (κ × ν)
  | [] => [(key,value)]
  | (k,v) :: rest =>
      if key < k then (key,value) :: (k,v) :: rest
      else if key = k then (key,value) :: rest
      else (k,v) :: insertIn key value rest

def eraseIn (key : κ) (entries : List (κ × ν)) : List (κ × ν) := entries.filter fun e => e.1 ≠ key

theorem memInsertIn {e : κ × ν} (mem : e ∈ insertIn key value entries) : e = (key,value) ∨ e ∈ entries := by
  induction entries with
  | nil => simpa [insertIn] using mem
  | cons _ _ ih =>
    unfold insertIn at mem
    split at mem
    · simpa using mem
    · split at mem
      · rcases mem_cons.mp mem with same | old
        · exact .inl same
        · exact .inr (mem_cons_of_mem _ old)
      · rcases mem_cons.mp mem with same | old
        · exact .inr (same ▸ mem_cons_self)
        · exact (ih old).imp_right (mem_cons_of_mem _)

theorem insertInAscending {key : κ} {value : ν} (asc : Ascending entries) :
    Ascending (insertIn key value entries) := by
  induction entries with
  | nil => exact pairwise_singleton _ _
  | cons _ _ ih =>
    obtain ⟨above,tail⟩ := pairwise_cons.mp asc
    unfold insertIn
    split
    · rename_i below
      refine pairwise_cons.mpr ⟨?_,asc⟩
      intro e mem
      rcases mem_cons.mp mem with same | old
      · exact same ▸ below
      · exact lt_trans below (above e old)
    · split
      · rename_i same
        exact pairwise_cons.mpr ⟨same ▸ above,tail⟩
      · rename_i notBelow notSame
        refine pairwise_cons.mpr ⟨?_,ih tail⟩
        intro e mem
        rcases memInsertIn mem with new | old
        · exact new ▸ lt_of_le_of_ne (not_lt.mp notBelow) (Ne.symm notSame)
        · exact above e old

@[simp] theorem findInsertIn (key other value) (entries : List (κ × ν)) :
    findIn other (insertIn key value entries) = if key = other then some value else findIn other entries := by
  induction entries with
  | nil => rfl
  | cons head _ ih =>
    obtain ⟨k,v⟩ := head
    unfold insertIn
    split
    · rfl
    · split
      · rename_i same
        subst same
        by_cases eq : key = other <;> simp [findIn,eq]
      · rename_i notSame
        by_cases here : k = other
        · have differs : ¬key = other := fun eq => notSame (eq.trans here.symm)
          simp [findIn,here,differs]
        · simp [findIn,here,ih]

theorem insertInTwice (key old new) (entries : List (κ × ν)) :
    insertIn key new (insertIn key old entries) = insertIn key new entries := by
  induction entries with
  | nil => simp [insertIn]
  | cons head _ ih =>
    obtain ⟨k,v⟩ := head
    by_cases below : key < k
    · simp [insertIn,below]
    · by_cases same : key = k
      · simp [insertIn,same]
      · simp [insertIn,below,same,ih]

@[simp] theorem findEraseIn (key other) (entries : List (κ × ν)) :
    findIn other (eraseIn key entries) = if key = other then none else findIn other entries := by
  induction entries with
  | nil => simp [eraseIn,findIn]
  | cons head _ ih =>
    obtain ⟨k,v⟩ := head
    unfold eraseIn at ih ⊢
    by_cases gone : k = key
    · subst gone
      rw [filter_cons_of_neg (by simp),ih]
      by_cases here : k = other <;> simp [findIn,here]
    · rw [filter_cons_of_pos (by simpa using gone)]
      by_cases here : k = other
      · have differs : ¬key = other := fun eq => gone (here.trans eq.symm)
        simp [findIn,here,differs]
      · rw [findIn,if_neg here,findIn,if_neg here,ih]

theorem memOfFindIn {key : κ} {value : ν} (found : findIn key entries = some value) : (key,value) ∈ entries := by
  induction entries with
  | nil => simp [findIn] at found
  | cons _ _ ih =>
    unfold findIn at found
    split at found
    · rename_i same
      cases Option.some.inj found
      exact same ▸ mem_cons_self
    · exact mem_cons_of_mem _ (ih found)

theorem findInFilter {keep : κ × ν → Bool} {entries : List (κ × ν)} (asc : Ascending entries) (key) :
    findIn key (entries.filter keep) = (findIn key entries).filter fun value => keep (key,value) := by
  induction entries with
  | nil => rfl
  | cons head rest ih =>
    obtain ⟨k,v⟩ := head
    obtain ⟨above,tail⟩ := pairwise_cons.mp asc
    by_cases here : k = key
    · subst here
      have absent : findIn k (rest.filter keep) = none := by
        rw [ih tail]
        cases found : findIn k rest with
        | none => rfl
        | some => exact absurd (above _ (memOfFindIn found)) (lt_irrefl _)
      cases kept : keep (k,v) <;> simp [findIn,kept,absent,Option.filter]
    · cases kept : keep (k,v) <;> simp [findIn,kept,here,ih tail]

theorem insertInPerm {entries : List (κ × ν)} (absent : findIn key entries = none) (value) :
    (insertIn key value entries).Perm ((key,value) :: entries) := by
  induction entries with
  | nil => exact .refl _
  | cons _ _ ih =>
    unfold findIn at absent
    split at absent
    · cases absent
    · rename_i differs
      unfold insertIn
      split
      · exact .refl _
      · rw [if_neg (Ne.symm differs)]
        exact ((ih absent).cons _).trans (.swap _ _ _)

theorem findInAbsent {key : κ} {entries : List (κ × ν)} (absent : ∀ e ∈ entries, e.1 ≠ key) :
    findIn key entries = none := by
  cases found : findIn key entries with
  | none => rfl
  | some => exact absurd rfl (absent _ (memOfFindIn found))

theorem findInAppend (key) (first second : List (κ × ν)) :
    findIn key (first ++ second) = (findIn key first).or (findIn key second) := by
  induction first with
  | nil => rfl
  | cons _ _ ih =>
    simp only [cons_append,findIn,ih]
    split <;> rfl

theorem findInOfMem {key : κ} {value : ν} (asc : Ascending entries)
    (mem : (key,value) ∈ entries) : findIn key entries = some value := by
  induction entries with
  | nil => simp at mem
  | cons head _ ih =>
    obtain ⟨above,tail⟩ := pairwise_cons.mp asc
    rcases mem_cons.mp mem with same | old
    · subst same
      simp [findIn]
    · have differs : head.1 ≠ key := ne_of_lt (above _ old)
      simp [findIn,differs,ih tail old]

theorem findInTakeWhile {entries : List (κ × ν)} (asc : Ascending entries)
    (reaches : ∀ e ∈ entries, e.1 ≤ key → keep e = true) : findIn key (entries.takeWhile keep) = findIn key entries := by
  induction entries with
  | nil => rfl
  | cons head _ ih =>
    obtain ⟨above,tail⟩ := pairwise_cons.mp asc
    obtain ⟨here,later⟩ := forall_mem_cons.mp reaches
    rw [takeWhile_cons]
    split
    · simp [findIn,ih tail later]
    · rename_i stopped
      have beyond : key < head.1 := not_le.mp fun low => stopped (here low)
      refine (findInAbsent fun e mem => ?_).symm
      rcases mem_cons.mp mem with rfl | old
      · exact (ne_of_lt beyond).symm
      · exact (ne_of_lt (lt_trans beyond (above e old))).symm

theorem insertInPresent {key : κ} {old : ν} (asc : Ascending entries)
    (found : findIn key entries = some old) (value) :
    insertIn key value entries = entries.map fun e => if e.1 = key then (key,value) else e := by
  induction entries with
  | nil => cases found
  | cons head rest ih =>
    obtain ⟨k,v⟩ := head
    obtain ⟨above,tail⟩ := pairwise_cons.mp asc
    unfold findIn at found
    unfold insertIn
    rw [map_cons]
    split at found
    · rename_i here
      subst here
      have others : (rest.map fun e => if e.1 = k then (k,value) else e) = rest := by
        refine (map_congr_left fun e mem => ?_).trans (map_id _)
        exact if_neg (ne_of_gt (above e mem))
      rw [if_neg (lt_irrefl _),if_pos rfl,if_pos rfl,others]
    · rename_i differs
      have later := above _ (memOfFindIn found)
      rw [if_neg (not_lt.mpr (le_of_lt later)),if_neg (Ne.symm differs),ih tail found,if_neg differs]

theorem insertInSame {key : κ} {value : ν} (asc : Ascending entries)
    (found : findIn key entries = some value) : insertIn key value entries = entries := by
  rw [insertInPresent asc found]
  refine (map_congr_left fun e mem => ?_).trans (map_id _)
  split
  · rename_i here
    cases here
    rw [findInOfMem asc mem] at found
    cases found
    rfl
  · rfl

structure Table (κ ν : Type) [LinearOrder κ] where
  entries : List (κ × ν)
  ascending : Ascending entries

namespace Table

theorem ext {a b : Table κ ν} (same : a.entries = b.entries) : a = b := by
  cases a
  cases b
  cases same
  rfl

instance [DecidableEq ν] : DecidableEq (Table κ ν) := fun a b =>
  decidable_of_iff (a.entries = b.entries) ⟨ext,fun same => same ▸ rfl⟩

def empty : Table κ ν := ⟨[],List.Pairwise.nil⟩

def find (t : Table κ ν) (key : κ) : Option ν := findIn key t.entries

def insert (t : Table κ ν) (key : κ) (value : ν) : Table κ ν :=
  ⟨insertIn key value t.entries,insertInAscending t.ascending⟩

def erase (t : Table κ ν) (key : κ) : Table κ ν :=
  ⟨eraseIn key t.entries,t.ascending.filter _⟩

def filter (keep : κ × ν → Bool) (t : Table κ ν) : Table κ ν :=
  ⟨t.entries.filter keep,t.ascending.filter _⟩

def mapValues {μ : Type} (f : ν → μ) (t : Table κ ν) : Table κ μ where
  entries := t.entries.map fun e => (e.1,f e.2)
  ascending := by
    unfold Ascending
    exact pairwise_map.mpr t.ascending

def keys (t : Table κ ν) : List κ := t.entries.map Prod.fst

@[simp] theorem findEmpty (key) : (empty : Table κ ν).find key = none := rfl

@[simp] theorem findInsert (t : Table κ ν) (key other) (value : ν) :
    (t.insert key value).find other = if key = other then some value else t.find other :=
  findInsertIn key other value t.entries

@[simp] theorem findErase (t : Table κ ν) (key other : κ) :
    (t.erase key).find other = if key = other then none else t.find other :=
  findEraseIn key other t.entries

theorem insertSame {t : Table κ ν} (found : t.find key = some value) : t.insert key value = t := by
  cases t with
  | mk entries ascending =>
    have same : insertIn key value entries = entries := insertInSame ascending found
    simp [insert,same]

@[simp] theorem findFilter (t : Table κ ν) (keep key) :
    (t.filter keep).find key = (t.find key).filter fun value => keep (key,value) :=
  findInFilter t.ascending key

@[simp] theorem insertTwice (t : Table κ ν) (key) (old new : ν) :
    (t.insert key old).insert key new = t.insert key new := by
  simp [insert,insertInTwice]

theorem findInserted {μ : Type} (f : Option μ → ν → μ) {entries} (asc : Ascending entries) (t : Table κ μ)
    (key) : (entries.foldl (fun t e => t.insert e.1 (f (t.find e.1) e.2)) t).find key =
      ((findIn key entries).map (f (t.find key))).or (t.find key) := by
  induction entries generalizing t with
  | nil => rfl
  | cons head rest ih =>
    obtain ⟨k,v⟩ := head
    obtain ⟨above,tail⟩ := pairwise_cons.mp asc
    rw [foldl_cons,ih tail,findInsert]
    by_cases here : k = key
    · have absent : findIn key rest = none :=
        findInAbsent fun e mem same => absurd (above e mem) (by simp [same,here])
      simp [findIn,here,absent]
    · simp [findIn,here]

theorem memIff {t : Table κ ν} {key : κ} : (key,value) ∈ t.entries ↔ t.find key = some value :=
  ⟨findInOfMem t.ascending,memOfFindIn⟩

theorem memKeys {t : Table κ ν} : key ∈ t.keys ↔ ∃ value, t.find key = some value := by
  constructor
  · intro mem
    obtain ⟨⟨k,v⟩,inside,same⟩ := mem_map.mp mem
    exact ⟨v,memIff.mp (same ▸ inside)⟩
  · rintro ⟨_,found⟩
    exact mem_map.mpr ⟨_,memIff.mpr found,rfl⟩

theorem tabulated (keys : List κ) (value : κ → Option ν) :
    ∃ t : Table κ ν, (∀ key ∈ keys, t.find key = value key) ∧ ∀ key, key ∉ keys → t.find key = none := by
  induction keys with
  | nil =>
    refine ⟨.empty,?_,fun _ _ => rfl⟩
    intro key mem
    cases mem
  | cons first _ ih =>
    obtain ⟨t,inside,outside⟩ := ih
    cases here : value first with
    | none =>
      refine ⟨t.erase first,fun key mem => ?_,fun key other => ?_⟩
      · rw [findErase]
        split
        · rename_i same
          rw [← same,here]
        · rename_i differs
          exact inside key ((mem_cons.mp mem).resolve_left fun same => differs same.symm)
      · rw [findErase,outside key fun mem => other (mem_cons_of_mem _ mem),ite_self]
    | some v =>
      refine ⟨t.insert first v,fun key mem => ?_,fun key other => ?_⟩
      · rw [findInsert]
        split
        · rename_i same
          rw [← same,here]
        · rename_i differs
          exact inside key ((mem_cons.mp mem).resolve_left fun same => differs same.symm)
      · have differs : first ≠ key := by
          rintro rfl
          exact other mem_cons_self
        rw [findInsert,if_neg differs]
        exact outside key fun mem => other (mem_cons_of_mem _ mem)

theorem eraseAbsent {t : Table κ ν} (absent : t.find key = none) : t.erase key = t := by
  refine ext (filter_eq_self.mpr fun e mem => ?_)
  have other : e.1 ≠ key := by
    rintro rfl
    rw [memIff.mp mem] at absent
    cases absent
  simp [other]

end Table

theorem entriesExt {first second : List (κ × ν)} (asc : Ascending first) (asc' : Ascending second)
    (same : ∀ e, e ∈ first ↔ e ∈ second) : first = second := by
  exact List.Pairwise.eq_of_mem_iff asc asc' fun e => same e

theorem tableExt {first second : Table κ ν} (same : ∀ key, first.find key = second.find key) : first = second := by
  refine Table.ext (entriesExt first.ascending second.ascending fun e => ?_)
  rw [Table.memIff,Table.memIff,same]

end NoeDB.OrderedTable
