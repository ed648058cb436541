import Mathlib.Order.Lattice
import Mathlib.Data.List.Sort

/-! Keeping the newest candidate of every key: sort by key and, within a key, newest
first; then keep the first of each group. The sort may order equal elements as it
likes; where equal elements cannot differ, the result does not depend on it. -/
namespace NoeDB.NewestPerKey
open List Option

structure Sorter where
  sort : {α : Type} → (α → α → Bool) → List α → List α
  perm : ∀ {α : Type} (le : α → α → Bool) (l : List α), (sort le l).Perm l
  sorted : ∀ {α : Type} (le : α → α → Bool) (l : List α),
    (∀ a b c, le a b = true → le b c = true → le a c = true) → (∀ a b, le a b = true ∨ le b a = true) →
      (sort le l).Pairwise fun a b => le a b = true

/- Insertion, which keeps equal elements in the order they came in. -/
def insertion : Sorter where
  sort le l := l.insertionSort fun a b => le a b = true
  perm _ l := perm_insertionSort _ l
  sorted le l trans total :=
    have := Std.Total.mk (r := fun a b => le a b = true) total
    have : IsTrans _ fun a b => le a b = true := ⟨trans⟩
    pairwise_insertionSort _ l

structure Candidate (κ τ ρ : Type) where
  key : κ
  stamp : τ
  payload : ρ
  deriving DecidableEq

theorem ascendingExt {κ τ ρ : Type} [LinearOrder κ] {left right : List (Candidate κ τ ρ)} (leftAsc : left.Pairwise fun a b => a.key < b.key)
    (rightAsc : right.Pairwise fun a b => a.key < b.key) (same : ∀ c, c ∈ left ↔ c ∈ right) : left = right := by
  have distinct : ∀ {l : List (Candidate κ τ ρ)}, (l.Pairwise fun a b => a.key < b.key) → l.Nodup := fun asc =>
    asc.imp fun less eq => absurd (eq ▸ less) (lt_irrefl _)
  have perm := (perm_ext_iff_of_nodup (distinct leftAsc) (distinct rightAsc)).mpr same
  refine List.Perm.eq_of_pairwise (fun a b _ _ ab ba => ?_) leftAsc rightAsc perm
  exact absurd (lt_trans ab ba) (lt_irrefl _)

variable {κ τ ρ : Type} [LinearOrder κ] [LinearOrder τ]

def before (a b : Candidate κ τ ρ) : Bool := a.key < b.key ∨ a.key = b.key ∧ b.stamp ≤ a.stamp

def firstPerKey (last : Option κ) : List (Candidate κ τ ρ) → List (Candidate κ τ ρ)
  | [] => []
  | c :: rest => if last = some c.key then firstPerKey last rest else c :: firstPerKey (some c.key) rest

def newestOf (sorter : Sorter) (candidates : List (Candidate κ τ ρ)) : List (Candidate κ τ ρ) :=
  firstPerKey none (sorter.sort before candidates)

def Untied (candidates : List (Candidate κ τ ρ)) : Prop :=
  ∀ a ∈ candidates, ∀ b ∈ candidates, a.key = b.key → a.stamp = b.stamp → a = b

def Newest (candidates : List (Candidate κ τ ρ)) (c : Candidate κ τ ρ) : Prop :=
  c ∈ candidates ∧ ∀ d ∈ candidates, d.key = c.key → d.stamp ≤ c.stamp

theorem beforeTrans (a b c : Candidate κ τ ρ) (ab : before a b = true) (bc : before b c = true) :
    before a c = true := by
  simp only [before,decide_eq_true_eq] at ab bc ⊢
  rcases ab with less | ⟨same,newer⟩
  · rcases bc with less' | ⟨same',_⟩
    · exact .inl (lt_trans less less')
    · exact .inl (same' ▸ less)
  · rcases bc with less' | ⟨same',newer'⟩
    · exact .inl (same ▸ less')
    · exact .inr ⟨same.trans same',le_trans newer' newer⟩

theorem beforeTotal (a b : Candidate κ τ ρ) : before a b = true ∨ before b a = true := by
  simp only [before,decide_eq_true_eq]
  rcases lt_trichotomy a.key b.key with less | same | more
  · exact .inl (.inl less)
  · rcases le_total a.stamp b.stamp with older | newer
    · exact .inr (.inr ⟨same.symm,older⟩)
    · exact .inl (.inr ⟨same,newer⟩)
  · exact .inr (.inl more)

theorem beforeKey {a b : Candidate κ τ ρ} (ab : before a b = true) : a.key ≤ b.key := by
  simp only [before,decide_eq_true_eq] at ab
  rcases ab with less | ⟨same,_⟩
  · exact le_of_lt less
  · exact le_of_eq same

section
variable {sorted : List (Candidate κ τ ρ)} (inOrder : sorted.Pairwise fun a b => before a b = true)
include inOrder

theorem firstPerKeyAscending (last) (above : ∀ k ∈ last, ∀ c ∈ sorted, k ≤ c.key) :
    (firstPerKey last sorted).Pairwise (fun a b => a.key < b.key) ∧
      ∀ k ∈ last, ∀ c ∈ firstPerKey last sorted, k < c.key := by
  induction sorted generalizing last with
  | nil => simp [firstPerKey]
  | cons c rest ih =>
    obtain ⟨first,tail⟩ := pairwise_cons.mp inOrder
    unfold firstPerKey
    split
    · exact ih tail last fun k here d mem => above k here d (mem_cons_of_mem _ mem)
    · rename_i fresh
      obtain ⟨asc,beyond⟩ := ih tail (some c.key) fun k here d mem => by
        cases some.inj here
        exact beforeKey (first d mem)
      have more : ∀ d ∈ firstPerKey (some c.key) rest, c.key < d.key := beyond c.key rfl
      refine ⟨pairwise_cons.mpr ⟨more,asc⟩,?_⟩
      intro k here d mem
      have strict : k < c.key := by
        refine lt_of_le_of_ne (above k here c mem_cons_self) fun same => ?_
        exact fresh (same ▸ here)
      rcases mem_cons.mp mem with same | later
      · exact same ▸ strict
      · exact lt_trans strict (more d later)

theorem firstPerKeyMem {last : Option κ} (kept : c ∈ firstPerKey last sorted) : Newest sorted c := by
  induction sorted generalizing last with
  | nil => simp [firstPerKey] at kept
  | cons head rest ih =>
    obtain ⟨first,tail⟩ := pairwise_cons.mp inOrder
    have later : ∀ {last}, (∀ k ∈ last, k = head.key) → last.isSome → c ∈ firstPerKey last rest →
        Newest (head :: rest) c := by
      intro last same isSome mem
      obtain ⟨inside,newest⟩ := ih tail mem
      refine ⟨mem_cons_of_mem _ inside,?_⟩
      intro d other sameKey
      rcases mem_cons.mp other with here | there
      · obtain ⟨k,eq⟩ := isSome_iff_exists.mp isSome
        have strict := (firstPerKeyAscending tail last fun k' here' e mem' =>
          (same k' here') ▸ beforeKey (first e mem')).2 k eq c mem
        rw [same k eq] at strict
        exact absurd (here ▸ sameKey) (ne_of_lt strict)
      · exact newest d there sameKey
    unfold firstPerKey at kept
    split at kept
    · rename_i same
      exact later (fun k here => some.inj (here.symm.trans same)) (by simp [same]) kept
    · rcases mem_cons.mp kept with here | there
      · subst here
        refine ⟨mem_cons_self,?_⟩
        intro d mem sameKey
        rcases mem_cons.mp mem with eq | old
        · exact eq ▸ le_refl _
        · have ordered := first d old
          simp only [before,decide_eq_true_eq,sameKey,lt_irrefl,false_or,true_and] at ordered
          exact ordered
      · exact later (fun k here => (some.inj here).symm) rfl there

theorem firstPerKeyCovers (mem : c ∈ sorted)
    (fresh : last ≠ some c.key) : ∃ d ∈ firstPerKey last sorted, d.key = c.key := by
  induction sorted generalizing last with
  | nil => simp at mem
  | cons head _ ih =>
    obtain ⟨_,tail⟩ := pairwise_cons.mp inOrder
    unfold firstPerKey
    split
    · rename_i same
      rcases mem_cons.mp mem with here | old
      · exact absurd (here ▸ same) fresh
      · exact ih tail old fresh
    · by_cases sameKey : head.key = c.key
      · exact ⟨head,mem_cons_self,sameKey⟩
      · rcases mem_cons.mp mem with here | old
        · exact absurd (here ▸ rfl) sameKey
        · have next : some head.key ≠ some c.key := fun eq => sameKey (some.inj eq)
          obtain ⟨d,kept,eq⟩ := ih tail old next
          exact ⟨d,mem_cons_of_mem _ kept,eq⟩

end

section
variable (sorter : Sorter) (candidates : List (Candidate κ τ ρ))

theorem sortedBefore : (sorter.sort before candidates).Pairwise fun a b => before a b = true :=
  sorter.sorted before candidates beforeTrans beforeTotal

theorem newestAscending : (newestOf sorter candidates).Pairwise fun a b => a.key < b.key :=
  (firstPerKeyAscending (sortedBefore sorter candidates) none fun _ none => nomatch none).1

variable {sorter candidates}

theorem newestKept (kept : c ∈ newestOf sorter candidates) : Newest candidates c := by
  have perm := sorter.perm before candidates
  obtain ⟨mem,newest⟩ := firstPerKeyMem (sortedBefore sorter candidates) kept
  exact ⟨perm.mem_iff.mp mem,fun d other => newest d (perm.mem_iff.mpr other)⟩

theorem newestCovers {c} (mem : c ∈ candidates) : ∃ d ∈ newestOf sorter candidates, d.key = c.key := by
  have fresh : (none : Option κ) ≠ some c.key := by simp
  have perm := sorter.perm before candidates
  exact firstPerKeyCovers (sortedBefore sorter candidates) (perm.mem_iff.mpr mem) fresh

theorem memNewestAt (untied : c ∈ candidates → ∀ d ∈ candidates, d.key = c.key → d.stamp = c.stamp → d = c) :
    c ∈ newestOf sorter candidates ↔ Newest candidates c := by
  refine ⟨newestKept,?_⟩
  rintro ⟨mem,newest⟩
  obtain ⟨d,kept,same⟩ := @newestCovers _ _ _ _ _ sorter _ c mem
  obtain ⟨inside,top⟩ := newestKept kept
  have stamps := le_antisymm (newest d inside same) (top c mem same.symm)
  rw [← untied mem d inside same stamps]
  exact kept

theorem memNewest (untied : Untied candidates) : c ∈ newestOf sorter candidates ↔ Newest candidates c :=
  memNewestAt fun mem d other => untied d other c mem

theorem newestCongr (untied : Untied candidates)
    (same : ∀ c, c ∈ candidates ↔ c ∈ other) : newestOf sorter candidates = newestOf sorter' other := by
  have untied' : Untied other := fun a left b right => untied a ((same a).mpr left) b ((same b).mpr right)
  refine ascendingExt (newestAscending sorter candidates) (newestAscending sorter' other) fun c => ?_
  rw [memNewest untied,memNewest untied']
  simp [Newest,same]

theorem newestExists (mem : c ∈ candidates) : ∃ d, Newest candidates d ∧ d.key = c.key := by
  obtain ⟨d,kept,same⟩ := @newestCovers _ _ _ _ _ insertion _ c mem
  exact ⟨d,newestKept kept,same⟩

theorem newestDropped (untied : Untied candidates) (subset : ∀ c ∈ part, c ∈ candidates)
    (older : ∀ c ∈ candidates, c ∉ part → ∃ d ∈ candidates, d.key = c.key ∧ c.stamp < d.stamp) :
    newestOf sorter part = newestOf sorter candidates := by
  have untied' : Untied part := fun a left b right => untied a (subset a left) b (subset b right)
  have kept : ∀ {c}, Newest candidates c → c ∈ part := by
    intro c newest
    by_contra gone
    obtain ⟨d,mem,same,less⟩ := older c newest.1 gone
    exact absurd (newest.2 d mem same) (not_le.mpr less)
  refine ascendingExt (newestAscending sorter part) (newestAscending sorter candidates) fun c => ?_
  rw [memNewest untied',memNewest untied]
  constructor
  · rintro ⟨mem,newest⟩
    refine ⟨subset c mem,fun d other same => ?_⟩
    obtain ⟨e,top,key⟩ := newestExists (subset c mem)
    exact le_trans (top.2 d other (same.trans key.symm)) (newest e (kept top) key)
  · rintro ⟨mem,newest⟩
    exact ⟨kept ⟨mem,newest⟩,fun d other => newest d (subset d other)⟩

end
end NoeDB.NewestPerKey
