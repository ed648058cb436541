import Mathlib.Order.Lattice
import Mathlib.Data.List.Sort

/-! Merging streams through a priority queue that holds the next element of each
stream: the least queued element is taken out and its stream's next one put in.
Streams that ascend come out as one ascending list of all their elements. -/
namespace NoeDB.KWayMerge
open List List.Pairwise
variable {ε α : Type} {tag : Nat → α → ε}

def pending (tag : Nat → α → ε) (first : Nat) : List (List α) → List ε
  | [] => []
  | stream :: streams => stream.map (tag first) ++ pending tag (first+1) streams

theorem getDSet {streams : List (List α)} (inside : i < streams.length) (rest j) :
    (streams.set i rest).getD j [] = if i = j then rest else streams.getD j [] := by
  by_cases same : i = j
  · subst same
    simp [getD_eq_getElem?_getD,inside]
  · simp [getD_eq_getElem?_getD,List.getElem?_set_ne same,same]

theorem getDInside {streams : List (List α)} (found : streams.getD i [] = a :: rest) : i < streams.length := by
  by_contra outside
  rw [getD_eq_getElem?_getD,List.getElem?_eq_none (by omega)] at found
  cases found

theorem permTaken (first) (found : streams.getD i [] = a :: rest) :
    (pending tag first streams).Perm (tag (first+i) a :: pending tag first (streams.set i rest)) := by
  induction streams generalizing first i with
  | nil => simp at found
  | cons _ _ ih =>
    cases i with
    | zero =>
      subst found
      exact List.Perm.refl _
    | succ =>
      have moved := ih (first+1) found
      rw [Nat.add_right_comm,Nat.add_assoc] at moved
      exact (moved.append_left _).trans perm_middle

theorem memPending : e ∈ pending tag first streams ↔ ∃ i, ∃ a ∈ streams.getD i [], e = tag (first+i) a := by
  induction streams generalizing first with
  | nil => simp [pending]
  | cons _ _ ih =>
    simp only [pending,mem_append,mem_map,ih]
    constructor
    · rintro (⟨a,inside,same⟩ | ⟨i,a,inside,same⟩)
      · exact ⟨0,a,inside,same.symm⟩
      · refine ⟨i+1,a,inside,?_⟩
        rw [same,Nat.add_right_comm,Nat.add_assoc]
    · rintro ⟨i,a,inside,same⟩
      cases i with
      | zero => exact .inl ⟨a,inside,same.symm⟩
      | succ i =>
        refine .inr ⟨i,a,inside,?_⟩
        rw [same,Nat.add_right_comm,Nat.add_assoc]

theorem getDTail (streams : List (List α)) (i) : (streams.map List.tail).getD i [] = (streams.getD i []).tail := by
  simp only [getD_eq_getElem?_getD,List.getElem?_map]
  cases streams[i]? <;> rfl

variable [LinearOrder ε] (tag) (source : ε → Nat)

/- The queue is kept ascending; its least element is its first. -/
def push (e : ε) (queue : List ε) : List ε := queue.orderedInsert (· ≤ ·) e

def prime (first : Nat) : List (List α) → List ε
  | [] => []
  | [] :: streams => prime (first+1) streams
  | (a :: _) :: streams => push (tag first a) (prime (first+1) streams)

def drain : Nat → List ε → List (List α) → List ε
  | 0,_,_ => []
  | _,[],_ => []
  | fuel+1,e :: queue,streams =>
      match streams.getD (source e) [] with
      | [] => e :: drain fuel queue streams
      | a :: rest => e :: drain fuel (push (tag (source e) a) queue) (streams.set (source e) rest)

def merged (streams : List (List α)) : List ε :=
  drain tag source (pending tag 0 streams).length (prime tag 0 streams) (streams.map List.tail)

structure Led (queue : List ε) (streams : List (List α)) : Prop where
  queued : queue.Pairwise (· ≤ ·)
  ascending : ∀ i, (streams.getD i []).Pairwise fun a b => tag i a ≤ tag i b
  follows : ∀ i, ∀ a ∈ streams.getD i [], ∃ q ∈ queue, source q = i ∧ q ≤ tag i a

variable {tag source}

theorem memPush {queue : List ε} : x ∈ push e queue ↔ x = e ∨ x ∈ queue := by
  simp [push]

theorem permPush (e) (queue : List ε) : (push e queue).Perm (e :: queue) := perm_orderedInsert _ e queue

theorem pushAscending {queue : List ε} (asc : queue.Pairwise (· ≤ ·)) : (push e queue).Pairwise (· ≤ ·) :=
  asc.orderedInsert e queue

theorem permPrimed (first) (streams : List (List α)) :
    (prime tag first streams ++ pending tag first (streams.map List.tail)).Perm (pending tag first streams) := by
  induction streams generalizing first with
  | nil => exact List.Perm.refl _
  | cons stream streams ih =>
    cases stream with
    | nil => exact ih (first+1)
    | cons a rest =>
      have queue := (permPush (tag first a) (prime tag (first+1) streams)).append_right
        (rest.map (tag first) ++ pending tag (first+1) (streams.map List.tail))
      have swapped : (prime tag (first+1) streams ++
          (rest.map (tag first) ++ pending tag (first+1) (streams.map List.tail))).Perm
          (rest.map (tag first) ++ pending tag (first+1) streams) := by
        refine List.Perm.trans ?_ ((ih (first+1)).append_left _)
        rw [← append_assoc,← append_assoc]
        exact perm_append_comm.append_right _
      exact queue.trans (swapped.cons _)

theorem primeAscending (first streams) : (prime tag first streams).Pairwise (· ≤ ·) := by
  induction streams generalizing first with
  | nil => exact nil
  | cons stream _ ih =>
    cases stream with
    | nil => exact ih (first+1)
    | cons => exact pushAscending (ih (first+1))

theorem memPrime {i : Nat} (first)
    (found : streams.getD i [] = a :: rest) : tag (first+i) a ∈ prime tag first streams := by
  induction streams generalizing first i with
  | nil => simp at found
  | cons stream _ ih =>
    cases i with
    | zero =>
      subst found
      exact memPush.mpr (.inl rfl)
    | succ =>
      have inside := ih (first+1) found
      rw [Nat.add_right_comm,Nat.add_assoc] at inside
      cases stream with
      | nil => exact inside
      | cons => exact memPush.mpr (.inr inside)

theorem ledExhausted (led : Led tag source (e :: queue) streams) (found : streams.getD (source e) [] = []) :
    Led tag source queue streams where
  queued := (pairwise_cons.mp led.queued).2
  ascending := led.ascending
  follows i b mem := by
    obtain ⟨q,inside,from',below⟩ := led.follows i b mem
    rcases mem_cons.mp inside with head | later
    · subst head
      rw [← from',found] at mem
      cases mem
    · exact ⟨q,later,from',below⟩

section
variable (tagged : ∀ i a, source (tag i a) = i)
include tagged

theorem primeLed (ascending : ∀ i, (streams.getD i []).Pairwise fun a b => tag i a ≤ tag i b) :
    Led tag source (prime tag 0 streams) (streams.map List.tail) where
  queued := primeAscending 0 streams
  ascending i := by
    rw [getDTail]
    exact (ascending i).tail
  follows i a mem := by
    rw [getDTail] at mem
    cases found : streams.getD i [] with
    | nil =>
      rw [found] at mem
      cases mem
    | cons b =>
      have inside : tag (0+i) b ∈ prime tag 0 streams := memPrime 0 found
      have order := ascending i
      rw [found] at mem order
      rw [Nat.zero_add] at inside
      exact ⟨_,inside,tagged i b,(pairwise_cons.mp order).1 a mem⟩

theorem ledTaken {e : ε} {queue : List ε}
    (led : Led tag source (e :: queue) streams) (found : streams.getD (source e) [] = a :: rest) :
    Led tag source (push (tag (source e) a) queue) (streams.set (source e) rest) where
  queued := pushAscending (pairwise_cons.mp led.queued).2
  ascending i := by
    rw [getDSet (getDInside found)]
    have order := led.ascending i
    split
    · rename_i same
      rw [← same,found] at order
      exact same ▸ (pairwise_cons.mp order).2
    · exact order
  follows i b mem := by
    rw [getDSet (getDInside found)] at mem
    split at mem
    · rename_i same
      have order := led.ascending (source e)
      rw [found] at order
      subst same
      exact ⟨_,memPush.mpr (.inl rfl),tagged _ a,(pairwise_cons.mp order).1 b mem⟩
    · rename_i other
      obtain ⟨q,inside,from',below⟩ := led.follows i b mem
      rcases mem_cons.mp inside with head | later
      · exact absurd (head ▸ from') other
      · exact ⟨q,memPush.mpr (.inr later),from',below⟩

theorem drainSorts (led : Led tag source queue streams) (enough : (queue ++ pending tag 0 streams).length ≤ fuel) :
    (drain tag source fuel queue streams).Perm (queue ++ pending tag 0 streams) ∧
      (drain tag source fuel queue streams).Pairwise (· ≤ ·) := by
  induction fuel generalizing queue streams with
  | zero =>
    have none := eq_nil_of_length_eq_zero (Nat.le_zero.mp enough)
    rw [none]
    exact ⟨List.Perm.refl _,nil⟩
  | succ _ ih =>
    cases queue with
    | nil =>
      have none : pending tag 0 streams = [] := by
        refine eq_nil_iff_forall_not_mem.mpr fun e mem => ?_
        obtain ⟨i,a,inside,-⟩ := memPending.mp mem
        obtain ⟨q,queued,-⟩ := led.follows i a inside
        cases queued
      rw [none]
      exact ⟨List.Perm.refl _,nil⟩
    | cons e queue =>
      have least : ∀ x ∈ queue ++ pending tag 0 streams, e ≤ x := by
        have order := (pairwise_cons.mp led.queued).1
        intro x mem
        rcases mem_append.mp mem with queued | waiting
        · exact order x queued
        · obtain ⟨i,a,inside,same⟩ := memPending.mp waiting
          obtain ⟨q,there,-,below⟩ := led.follows i a inside
          rw [same,Nat.zero_add]
          rcases mem_cons.mp there with head | later
          · exact head ▸ below
          · exact le_trans (order q later) below
      simp only [cons_append,length_cons,length_append] at enough
      cases found : streams.getD (source e) [] with
      | nil =>
        obtain ⟨rest,order⟩ := ih (ledExhausted led found) (by simp only [length_append]; omega)
        simp only [drain,found]
        exact ⟨rest.cons e,pairwise_cons.mpr ⟨fun x mem => least x (rest.mem_iff.mp mem),order⟩⟩
      | cons a =>
        have taken : (pending tag 0 streams).Perm _ := permTaken 0 found
        rw [Nat.zero_add] at taken
        have size := taken.length_eq
        have queued := (permPush (tag (source e) a) queue).length_eq
        simp only [length_cons] at size queued
        obtain ⟨more,order⟩ := ih (ledTaken tagged led found) (by simp only [length_append]; omega)
        have all := (more.trans ((permPush _ queue).append_right _)).trans
          (perm_middle.symm.trans (taken.symm.append_left queue))
        simp only [drain,found]
        exact ⟨all.cons e,pairwise_cons.mpr ⟨fun x mem => least x (all.mem_iff.mp mem),order⟩⟩

theorem mergedPerm (ascending : ∀ i, (streams.getD i []).Pairwise fun a b => tag i a ≤ tag i b) :
    (merged tag source streams).Perm (pending tag 0 streams) :=
  (drainSorts tagged (primeLed tagged ascending) (permPrimed 0 streams).length_eq.le).1.trans (permPrimed 0 streams)

end
end NoeDB.KWayMerge
